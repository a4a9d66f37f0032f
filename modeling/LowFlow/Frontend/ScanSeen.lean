import LowFlow.Frontend.Segments

/-!
# What the tokens of a scan show

A token shows its type and the characters of its lexeme, when it has one. What a
scan adds to the tokens depends on the text and on what is open, not on what was
scanned before (`scan_adds`). Where nothing but the characters counts, a scan
fails only at an opening quote that ends the text (`scan_lets`).
-/

set_option autoImplicit false

namespace LowFlow

variable {γ : Type}

/-- The type of a token and the characters of its lexeme. -/
structure Seen where
  type : TokenType
  content : Option (List UInt8)
deriving DecidableEq, Repr

/-- What the token of a flushed lexeme shows. -/
def lexemeSeen (chars : List UInt8) : Seen :=
  if chars.length ≤ 1 then ⟨charType (chars.headD 0), none⟩
  else ⟨wordType chars, if wordType chars = .identifier then some chars else none⟩

/-- What a token of a scan shows, by these lexemes. -/
def Token.seen (lexemes : List (List UInt8)) (t : Token ℕ) : Seen :=
  ⟨t.type, t.lexeme.join.bind fun k => lexemes[k]?⟩

namespace Scan

/-- What the tokens show, by the lexemes that are done. -/
def seen (s : Scan UInt8) : List Seen :=
  s.tokens.map (Token.seen s.past)

/-- The lexemes of the tokens are done. -/
def Sound (s : Scan γ) : Prop :=
  ∀ t ∈ s.tokens, ∀ k, t.lexeme = some (some k) → k < s.past.length

theorem sound_empty : (empty : Scan γ).Sound := by
  intro t member
  cases member

section Extending

variable {s s' : Scan UInt8} {past : List (List UInt8)} {tokens : List (Token ℕ)}

/-- More lexemes and more tokens leave what the tokens show. -/
theorem seen_extend (sound : s.Sound) (more : s'.past = s.past ++ past)
    (added : s'.tokens = s.tokens ++ tokens) :
    s'.seen = s.seen ++ tokens.map (Token.seen s'.past) := by
  rw [seen, added, List.map_append]
  congr 1
  apply List.map_congr_left
  intro t member
  rcases t with ⟨type, _ | _ | k⟩
  · rfl
  · rfl
  · have bound := sound _ member k rfl
    simp [Token.seen, more, List.getElem?_append_left bound]

theorem Sound.extend (sound : s.Sound) (more : s'.past = s.past ++ past)
    (added : s'.tokens = s.tokens ++ tokens)
    (valid : ∀ t ∈ tokens, ∀ k, t.lexeme = some (some k) → k < s'.past.length) : s'.Sound := by
  intro t member k named
  rw [added] at member
  rcases List.mem_append.mp member with before | new
  · rw [more, List.length_append]
    exact Nat.lt_add_right _ (sound t before k named)
  · exact valid t new k named

/-- A token without a lexeme. -/
theorem seen_emit (sound : s.Sound) (type : TokenType) (lexeme : Option (Option ℕ))
    (unnamed : lexeme.join = none) :
    (s.emit ⟨type, lexeme⟩).seen = s.seen ++ [⟨type, none⟩] ∧ (s.emit ⟨type, lexeme⟩).Sound := by
  have more : (s.emit ⟨type, lexeme⟩).past = s.past ++ [] := (List.append_nil _).symm
  constructor
  · rw [seen_extend sound more rfl]
    simp [Token.seen, unnamed]
  · apply sound.extend more rfl
    intro t member k named
    obtain rfl := List.mem_singleton.mp member
    rw [show lexeme = some (some k) from named] at unnamed
    cases unnamed

/-- A new lexeme shows nothing yet. -/
theorem seen_start (sound : s.Sound) (x : UInt8) (reading : Bool) :
    (s.start x reading).seen = s.seen ∧ (s.start x reading).Sound := by
  have added : (s.start x reading).tokens = s.tokens ++ [] := (List.append_nil _).symm
  constructor
  · rw [seen_extend sound rfl added]
    simp
  · exact sound.extend rfl added (by simp)

/-- The token of a literal. -/
theorem seen_close (sound : s.Sound) :
    s.close.seen = s.seen ++ [⟨.str, s.current⟩] ∧ s.close.Sound := by
  constructor
  · rw [seen_extend sound (show s.close.past = s.past ++ s.current.toList from rfl) rfl]
    cases current : s.current <;> simp [Token.seen, close, lexemes, current]
  · apply sound.extend (show s.close.past = s.past ++ s.current.toList from rfl) rfl
    intro t member k named
    obtain rfl := List.mem_singleton.mp member
    cases current : s.current with
    | none => simp [current] at named
    | some chars =>
        obtain rfl : s.past.length = k := by simpa [current] using named
        simp [close, lexemes, current]

/-- The token of the open lexeme. -/
theorem seen_flush (sound : s.Sound) :
    ∃ s', s.flush .free = some s' ∧ s'.seen = s.seen ++ s.current.toList.map lexemeSeen ∧
      s'.Sound := by
  cases current : s.current with
  | none => exact ⟨s, by simp [flush, current], by simp, sound⟩
  | some chars =>
      have flushed : s.flush .free = some ⟨s.tokens ++ [lexemeToken chars s.past.length],
          s.past ++ [chars], none, s.reading⟩ := by
        simp [flush, current, Layout.free, lexemes]
      refine ⟨_, flushed, ?_, ?_⟩
      · rw [seen_extend sound rfl rfl]
        simp only [Option.toList_some, List.map_cons, List.map_nil, lexemeToken, lexemeSeen]
        split_ifs <;> simp [Token.seen]
      · apply sound.extend rfl rfl
        intro t member k named
        obtain rfl := List.mem_singleton.mp member
        simp only [lexemeToken] at named
        split_ifs at named <;> simp at named
        simp [← named]

end Extending

end Scan

/-! ## What a scan adds -/

/-- At the end no lexeme is open. -/
theorem scan_current {L : Layout γ} {text : List γ} {s result : Scan γ}
    (scanned : scan L text s = some result) : result.current = none := by
  refine scan_induction (P := fun _ _ => result.current = none) ?_ ?_ scanned
  · rintro s flushed flush rfl
    exact (Scan.current_flush flush).1
  · intro x rest rest' s s' step onward
    exact onward

/-- A step is the same with more text behind. -/
theorem ScanStep.append {L : Layout γ} {s s' : Scan γ} {x : γ} {rest rest' : List γ}
    (step : ScanStep L s x rest rest' s') (more : List γ) :
    ScanStep L s x (rest ++ more) (rest' ++ more) s' := by
  cases step with
  | opens isQuote outside adjoins => exact .opens isQuote outside adjoins
  | closes isQuote inside => exact .closes isQuote inside
  | reads notQuote inside grown => exact .reads notQuote inside grown
  | blank notQuote outside white flushed => exact .blank notQuote outside white flushed
  | boundary notQuote outside notWhite hard flushed =>
      exact .boundary notQuote outside notWhite hard flushed
  | starts plain outside closed => exact .starts plain outside closed
  | grows plain outside current grown => exact .grows plain outside current grown

section Adding

variable {s s' t : Scan UInt8} {x : UInt8} {rest rest' : List UInt8}

/-- A step adds the same to the tokens of every scan that has the same lexeme open. -/
theorem ScanStep.again (step : ScanStep .free s x rest rest' s') (current : t.current = s.current)
    (reading : t.reading = s.reading) (sound : s.Sound) (sound' : t.Sound) :
    ∃ t' added, ScanStep .free t x rest rest' t' ∧ t'.current = s'.current ∧
      t'.reading = s'.reading ∧ s'.Sound ∧ t'.Sound ∧ s'.seen = s.seen ++ added ∧
      t'.seen = t.seen ++ added := by
  cases step with
  | @opens first _ isQuote outside adjoins =>
      obtain ⟨seen, still⟩ := Scan.seen_start sound first true
      obtain ⟨seen', still'⟩ := Scan.seen_start sound' first true
      exact ⟨_, [], .opens isQuote (reading.trans outside) adjoins, rfl, rfl, still, still',
        by simpa using seen, by simpa using seen'⟩
  | closes isQuote inside =>
      obtain ⟨seen, still⟩ := Scan.seen_close sound
      obtain ⟨seen', still'⟩ := Scan.seen_close sound'
      exact ⟨_, _, .closes isQuote (reading.trans inside), rfl, rfl, still, still', seen,
        current ▸ seen'⟩
  | reads notQuote inside grown =>
      obtain ⟨init, last, opened, joins, rfl⟩ := Scan.grow_eq_some grown
      have grown' : t.grow .free x = some { t with current := some (init ++ [last] ++ [x]) } := by
        simp [Scan.grow, current, opened, Layout.free]
      exact ⟨_, [], .reads notQuote (reading.trans inside) grown', rfl, reading, sound, sound',
        (List.append_nil _).symm, (List.append_nil _).symm⟩
  | blank notQuote outside white flushed =>
      obtain ⟨s₁, flush, seen, still⟩ := Scan.seen_flush sound
      obtain ⟨t₁, flush', seen', still'⟩ := Scan.seen_flush sound'
      obtain rfl := Option.some.inj (flushed.symm.trans flush)
      obtain ⟨closed, same⟩ := Scan.current_flush flushed
      obtain ⟨closed', same'⟩ := Scan.current_flush flush'
      exact ⟨t₁, _, .blank notQuote (reading.trans outside) white flush', closed'.trans closed.symm,
        same'.trans (reading.trans same.symm), still, still', seen, current ▸ seen'⟩
  | boundary notQuote outside notWhite hard flushed =>
      obtain ⟨s₁, flush, seen, still⟩ := Scan.seen_flush sound
      obtain ⟨t₁, flush', seen', still'⟩ := Scan.seen_flush sound'
      obtain rfl := Option.some.inj (flushed.symm.trans flush)
      obtain ⟨closed, same⟩ := Scan.current_flush flushed
      obtain ⟨closed', same'⟩ := Scan.current_flush flush'
      let type := lfGetTokenTypeFromHardBoundaryLexeme (Layout.free.char x)
      obtain ⟨emitted, still⟩ := Scan.seen_emit still type none rfl
      obtain ⟨emitted', still'⟩ := Scan.seen_emit still' type none rfl
      refine ⟨_, s.current.toList.map lexemeSeen ++ [⟨type, none⟩],
        .boundary notQuote (reading.trans outside) notWhite hard flush', closed'.trans closed.symm,
        same'.trans (reading.trans same.symm), still, still', ?_, ?_⟩
      · rw [emitted, seen, List.append_assoc]
      · rw [emitted', seen', current, List.append_assoc]
  | starts plain outside closed =>
      obtain ⟨seen, still⟩ := Scan.seen_start sound x false
      obtain ⟨seen', still'⟩ := Scan.seen_start sound' x false
      exact ⟨_, [], .starts plain (reading.trans outside) (current.trans closed), rfl, rfl, still,
        still', by simpa using seen, by simpa using seen'⟩
  | grows plain outside opened grown =>
      obtain ⟨init, last, opened', joins, rfl⟩ := Scan.grow_eq_some grown
      have grown' : t.grow .free x = some { t with current := some (init ++ [last] ++ [x]) } := by
        simp [Scan.grow, current, opened', Layout.free]
      exact ⟨_, [], .grows plain (reading.trans outside) (current.trans opened) grown', rfl,
        reading, sound, sound', (List.append_nil _).symm, (List.append_nil _).symm⟩

/-- **What a scan adds** depends on the text and on what is open. -/
theorem scan_adds {text : List UInt8} {result : Scan UInt8}
    (scanned : scan .free text s = some result) : s.Sound → ∀ t : Scan UInt8,
      t.current = s.current → t.reading = s.reading → t.Sound →
        ∃ result' added, scan .free text t = some result' ∧ result.seen = s.seen ++ added ∧
          result'.seen = t.seen ++ added := by
  refine scan_induction (P := fun text s => s.Sound → ∀ t : Scan UInt8, t.current = s.current →
    t.reading = s.reading → t.Sound → ∃ result' added, scan .free text t = some result' ∧
      result.seen = s.seen ++ added ∧ result'.seen = t.seen ++ added) ?_ ?_ scanned
  · rintro s s₁ flushed rfl sound t current reading sound'
    obtain ⟨s₂, flush, seen, still⟩ := Scan.seen_flush sound
    obtain ⟨t₁, flush', seen', still'⟩ := Scan.seen_flush sound'
    obtain rfl := Option.some.inj (flushed.symm.trans flush)
    obtain ⟨emitted, -⟩ := Scan.seen_emit still .eof (some none) rfl
    obtain ⟨emitted', -⟩ := Scan.seen_emit still' .eof (some none) rfl
    have scanned' : scan .free [] t = some (t₁.emit ⟨.eof, some none⟩) := by simp [scan, flush']
    refine ⟨_, s.current.toList.map lexemeSeen ++ [⟨.eof, none⟩], scanned', ?_, ?_⟩
    · rw [emitted, seen, List.append_assoc]
    · rw [emitted', seen', current, List.append_assoc]
  · intro x rest rest' s s₁ step onward sound t current reading sound'
    obtain ⟨t₁, added, step', current₁, reading₁, sound₁, sound₁', seen, seen'⟩ :=
      step.again current reading sound sound'
    obtain ⟨result', more, scanned', ends, ends'⟩ := onward sound₁ t₁ current₁ reading₁ sound₁'
    refine ⟨result', added ++ more, scan_cons_iff.mpr ⟨_, _, step', scanned'⟩, ?_, ?_⟩
    · rw [ends, seen, List.append_assoc]
    · rw [ends', seen', List.append_assoc]

end Adding

/-! ## Where a scan fails -/

/-- The text, read in or outside of a literal, ends with a quote that opens one.
The character behind an opening quote is taken into the literal, whatever it is. -/
def opensAtEnd : Bool → List UInt8 → Bool
  | _, [] => false
  | true, c :: rest => opensAtEnd (decide (c ≠ quote)) rest
  | false, c :: rest =>
      if c = quote then
        match rest with
        | [] => true
        | _ :: rest => opensAtEnd true rest
      else opensAtEnd false rest

/-- A character that is no quote opens and closes no literal. -/
theorem opensAtEnd_other {c : UInt8} (other : c ≠ quote) (reading : Bool) (rest : List UInt8) :
    opensAtEnd reading (c :: rest) = opensAtEnd reading rest := by
  cases reading with
  | true => simp [opensAtEnd, other]
  | false => cases rest <;> simp [opensAtEnd, other]

/-- The open lexeme has characters of this kind, and a literal is read into one. -/
structure Scan.Ready (P : γ → Prop) (s : Scan γ) : Prop where
  opened : s.reading = true → s.current ≠ none
  chars : ∀ chars, s.current = some chars → chars ≠ [] ∧ ∀ z ∈ chars, P z

section Failing

variable {L : Layout γ} {P : γ → Prop} {s s' : Scan γ} {x : γ} {rest rest' text : List γ}

theorem Scan.ready_empty : (Scan.empty : Scan γ).Ready P := by
  constructor
  · intro reading
    cases reading
  · intro chars current
    cases current

theorem ScanStep.opensAtEnd_eq (step : ScanStep L s x rest rest' s') :
    opensAtEnd s.reading ((x :: rest).map L.char) = opensAtEnd s'.reading (rest'.map L.char) := by
  cases step with
  | opens isQuote outside adjoins => simp [opensAtEnd, isQuote, outside, Scan.start]
  | closes isQuote inside => simp [opensAtEnd, isQuote, inside, Scan.close]
  | reads notQuote inside grown =>
      obtain ⟨init, last, -, -, rfl⟩ := Scan.grow_eq_some grown
      simp [opensAtEnd_other notQuote]
  | blank notQuote outside white flushed =>
      obtain ⟨-, same⟩ := Scan.current_flush flushed
      simp [opensAtEnd_other notQuote, same]
  | boundary notQuote outside notWhite hard flushed =>
      obtain ⟨-, same⟩ := Scan.current_flush flushed
      simp [opensAtEnd_other notQuote, same, Scan.emit]
  | starts plain outside closed => simp [opensAtEnd_other plain.1, outside, Scan.start]
  | grows plain outside current grown =>
      obtain ⟨init, last, -, -, rfl⟩ := Scan.grow_eq_some grown
      simp [opensAtEnd_other plain.1]

/-- Growing the open lexeme by such a character. -/
theorem Scan.Ready.grow (ready : s.Ready P) (here : P x) (grown : s.grow L x = some s') :
    s'.Ready P := by
  obtain ⟨init, last, current, -, rfl⟩ := Scan.grow_eq_some grown
  refine ⟨by simp, ?_⟩
  rintro chars same
  cases same
  refine ⟨by simp, ?_⟩
  intro z member
  rcases List.mem_append.mp member with before | new
  · exact (ready.chars _ current).2 z before
  · exact List.mem_singleton.mp new ▸ here

/-- No lexeme is open. -/
theorem Scan.Ready.of_closed (closed : s.current = none) (outside : s.reading = false) :
    s.Ready P := by
  constructor
  · intro reading
    rw [outside] at reading
    cases reading
  · intro chars current
    rw [closed] at current
    cases current

theorem Scan.Ready.start (here : P x) (reading : Bool) : (s.start x reading).Ready P := by
  constructor
  · intro inside
    exact Option.some_ne_none _
  · rintro chars current
    cases current
    exact ⟨by simp, fun z member => List.mem_singleton.mp member ▸ here⟩

theorem ScanStep.ready (step : ScanStep L s x rest rest' s') (ready : s.Ready P)
    (all : ∀ z ∈ x :: rest, P z) : s'.Ready P ∧ ∀ z ∈ rest', P z := by
  obtain ⟨here, onward⟩ := List.forall_mem_cons.mp all
  cases step with
  | opens isQuote outside adjoins =>
      obtain ⟨first, onward⟩ := List.forall_mem_cons.mp onward
      exact ⟨.start first true, onward⟩
  | closes isQuote inside => exact ⟨.of_closed rfl rfl, onward⟩
  | reads notQuote inside grown => exact ⟨ready.grow here grown, onward⟩
  | blank notQuote outside white flushed =>
      obtain ⟨closed, same⟩ := Scan.current_flush flushed
      exact ⟨.of_closed closed (same.trans outside), onward⟩
  | boundary notQuote outside notWhite hard flushed =>
      obtain ⟨closed, same⟩ := Scan.current_flush flushed
      exact ⟨.of_closed closed (same.trans outside), onward⟩
  | starts plain outside closed => exact ⟨.start here false, onward⟩
  | grows plain outside current grown => exact ⟨ready.grow here grown, onward⟩

/-- The open lexeme can be flushed. -/
theorem Scan.Ready.flush (lets : L.Lets P) (ready : s.Ready P) : ∃ s', s.flush L = some s' := by
  cases current : s.current with
  | none => exact ⟨s, by simp [Scan.flush, current]⟩
  | some chars =>
      have comparable := lets.comparable chars (ready.chars chars current).2
      exact ⟨_, by simp only [Scan.flush, current, comparable, ↓reduceIte]; rfl⟩

/-- There is a step unless the character is a quote that opens a literal at the end. -/
theorem ScanStep.exists_of_lets (lets : L.Lets P) (ready : s.Ready P) (all : ∀ z ∈ x :: rest, P z)
    (more : L.char x = quote → s.reading = false → rest ≠ []) :
    ∃ rest' s', ScanStep L s x rest rest' s' := by
  obtain ⟨here, onward⟩ := List.forall_mem_cons.mp all
  have grows : ∀ chars, s.current = some chars → ∃ s', s.grow L x = some s' := by
    intro chars current
    obtain ⟨nonempty, inside⟩ := ready.chars chars current
    exact ⟨_, Scan.grow_lets lets current nonempty inside here⟩
  by_cases isQuote : L.char x = quote
  · cases reading : s.reading with
    | false =>
        obtain ⟨first, rest, rfl⟩ := List.exists_cons_of_ne_nil (more isQuote reading)
        have adjoins := lets.adjoins x first here (onward first (List.mem_cons_self ..))
        exact ⟨_, _, .opens isQuote reading adjoins⟩
    | true => exact ⟨_, _, .closes isQuote reading⟩
  · cases reading : s.reading with
    | true =>
        obtain ⟨chars, current⟩ := Option.ne_none_iff_exists'.mp (ready.opened reading)
        obtain ⟨s', grown⟩ := grows chars current
        exact ⟨_, _, .reads isQuote reading grown⟩
    | false =>
        obtain ⟨s', flushed⟩ := ready.flush lets
        cases white : lfIsWhitespace (L.char x) with
        | true => exact ⟨_, _, .blank isQuote reading white flushed⟩
        | false =>
            by_cases soft : lfGetTokenTypeFromHardBoundaryLexeme (L.char x) = .unknown
            · cases current : s.current with
              | none => exact ⟨_, _, .starts ⟨isQuote, white, soft⟩ reading current⟩
              | some chars =>
                  obtain ⟨s', grown⟩ := grows chars current
                  exact ⟨_, _, .grows ⟨isQuote, white, soft⟩ reading current grown⟩
            · exact ⟨_, _, .boundary isQuote reading white soft flushed⟩

/-- **Where only the characters count,** every text is scanned that does not end with
an opening quote. -/
theorem scan_lets (lets : L.Lets P) (ready : s.Ready P) (all : ∀ z ∈ text, P z)
    (closed : opensAtEnd s.reading (text.map L.char) = false) :
    ∃ result, scan L text s = some result := by
  induction length : text.length using Nat.strong_induction_on generalizing text s with
  | _ n ih =>
      cases text with
      | nil =>
          obtain ⟨s', flushed⟩ := ready.flush lets
          exact ⟨s'.emit ⟨.eof, some none⟩, by simp [scan, flushed]⟩
      | cons x rest =>
          have more : L.char x = quote → s.reading = false → rest ≠ [] := by
            rintro isQuote outside rfl
            simp [opensAtEnd, isQuote, outside] at closed
          obtain ⟨rest', s', step⟩ := ScanStep.exists_of_lets lets ready all more
          obtain ⟨ready', all'⟩ := step.ready ready all
          rw [step.opensAtEnd_eq] at closed
          have shorter := step.length_le
          obtain ⟨result, scanned⟩ :=
            ih rest'.length (by simp at length; omega) ready' all' closed rfl
          exact ⟨result, step.scan_eq.trans scanned⟩

end Failing

end LowFlow
