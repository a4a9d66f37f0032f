import LowFlow.Memory.ComparedText
import LowFlow.Planning.PassStrings

/-!
# Logging

`core/logger.c`. A line is put together in a string of the logger: the time, the
level and the message. The time and the message are written straight to the head
block, and the string is told of them afterwards. A line that fits in the block with
its terminator is printed as it is meant, a longer one never is (`logs_lines_iff`).
-/

set_option autoImplicit false

namespace LowFlow

open Library

/-! ## The code -/

/-- What `lf_log` asks of the C library: the text of a time in a format, and what
`strftime` leaves in the buffer when the text has no room there. -/
structure TimeTexts where
  strftime : List UInt8 → ℕ → List UInt8
  scratch : List UInt8 → ℕ → List UInt8

/-- `LF_Logger`, with its members set. -/
structure LFLogger where
  minLevel : LogLevel
  buf : LFString UInt8
  timeFmt : List UInt8
  isColored : Bool

/-- A call of `lf_log`: the level, the time of the call, and the formatted message. -/
structure LogCall where
  level : LogLevel
  now : ℕ
  msg : List UInt8

/-- The numbers of the levels. -/
def LogLevel.value : LogLevel → ℕ
  | .debug => 0
  | .info => 1
  | .warning => 2
  | .error => 3
  | .fatal => 4

/-- `level_strs`. -/
def levelStrs : LogLevel → List UInt8
  | .debug => [68, 66, 71]
  | .info => [73, 78, 70]
  | .warning => [87, 65, 82]
  | .error => [69, 82, 82]
  | .fatal => [70, 65, 84]

/-- `colored_level_strs`: the color is set before the level and reset behind it. -/
def coloredLevelStrs (level : LogLevel) : List UInt8 :=
  let color : List UInt8 := match level with
    | .debug => [57, 48]
    | .info => [51, 50]
    | .warning => [51, 51]
    | .error => [51, 49]
    | .fatal => [51, 53]
  [27, 91] ++ color ++ [109] ++ levelStrs level ++ [27, 91, 48, 109]

/-- `%Y-%m-%d %H:%M:%S`. -/
def defaultTimeFmt : List UInt8 :=
  [37, 89, 45, 37, 109, 45, 37, 100, 32, 37, 72, 58, 37, 77, 58, 37, 83]

/-- `0000-00-00 00:00:00`. -/
def noTime : List UInt8 :=
  [48, 48, 48, 48, 45, 48, 48, 45, 48, 48, 32, 48, 48, 58, 48, 48, 58, 48, 48]

/-- `lf_init_logger`, for a logger whose string has an arena and no slice. -/
def LFLogger.init (malloc : Allocator UInt8) (minLevel : LogLevel)
    (timeFmt : Option (List UInt8)) (isColored : Bool) : Option LFLogger := do
  let buf ← lfInitString (LFString.declared malloc loggerBufCharQttInBlock)
  some { minLevel, buf, timeFmt := timeFmt.getD defaultTimeFmt, isColored }

/-- Writing bytes to the memory of a string. -/
def LFString.store (str : LFString UInt8) (ptr : Ptr) (bytes : List UInt8) :
    Option (LFString UInt8) := do
  let heap ← str.arena.heap.store ptr bytes
  some { str with arena := { str.arena with heap } }

/-- `strftime` to the start of a block: the number of its characters, and 0 when the
text and its terminator have no room. -/
def strftimeTo (texts : TimeTexts) (timeFmt : List UInt8) (now : ℕ) (buf : LFString UInt8)
    (headBlock : BlockPtr) : Option (ℕ × LFString UInt8) := do
  let text := texts.strftime timeFmt now
  if text.length + 1 ≤ buf.charQttInBlock then
    some (text.length, ← buf.store ⟨headBlock, (0 : ℕ)⟩ (text ++ [0]))
  else
    let left := (texts.scratch timeFmt now).take buf.charQttInBlock
    some (0, ← buf.store ⟨headBlock, (0 : ℕ)⟩ left)

/-- The time at the start of a block, and zeros where `strftime` writes none. -/
def logTime (texts : TimeTexts) (timeFmt : List UInt8) (now : ℕ) (buf : LFString UInt8)
    (headBlock : BlockPtr) : Option (ℕ × LFString UInt8) := do
  let (timeSize, buf) ← strftimeTo texts timeFmt now buf headBlock
  if timeSize = 0 then some (19, ← buf.store ⟨headBlock, (0 : ℕ)⟩ (noTime ++ [0]))
  else some (timeSize, buf)

/-- The level, in memory of the string of its own. -/
def logLevel (levelStr : List UInt8) (buf : LFString UInt8) : Option (LFString UInt8) := do
  let (levelBuf, buf) ← lfAllocString buf (levelStr.length + 2)
  buf.store levelBuf ([32] ++ levelStr ++ [32])

/-- `vsnprintf`: as much of the text as has room with its terminator. -/
def vsnprintf (buf : LFString UInt8) (ptr : Ptr) (size : ℕ) (text : List UInt8) :
    Option (LFString UInt8) :=
  if size = 0 then some buf else buf.store ptr (text.take (size - 1) ++ [0])

/-- The message and the end of the line, behind what is in use of a block. -/
def logMsg (msg : List UInt8) (buf : LFString UInt8) (headBlock : BlockPtr) :
    Option (LFString UInt8) := do
  let head ← buf.arena.heap.block headBlock
  let remainingSize := sizeSub head.size head.rightOffset
  let buf ← vsnprintf buf ⟨headBlock, head.rightOffset⟩ remainingSize msg
  if msg.length + 1 < remainingSize then
    let buf ← buf.store ⟨headBlock, (head.rightOffset + msg.length : ℕ)⟩ [10, 0]
    let (_, buf) ← lfAllocString buf (msg.length + 1)
    some buf
  else none

/-- The text that `%s` prints of a block: its bytes up to the terminator. -/
def printed (buf : LFString UInt8) (block : BlockPtr) : Option (List UInt8) := do
  let bytes ← buf.arena.heap.load ⟨block, (0 : ℕ)⟩ buf.charQttInBlock
  if 0 ∈ bytes then some (bytes.takeWhile (· ≠ 0)) else none

/-- `level_str`. -/
def LFLogger.levelStr (logger : LFLogger) (level : LogLevel) : List UInt8 :=
  if logger.isColored then coloredLevelStrs level else levelStrs level

/-- `lf_log`. The answer is what is printed. -/
def lfLog (texts : TimeTexts) (call : LogCall) (logger : LFLogger) :
    Option (Option (List UInt8) × LFLogger) := do
  if call.level.value < logger.minLevel.value then some (none, logger)
  else
    let buf ← lfResetString logger.buf
    let headBlock ← buf.arena.headBlock
    let (timeSize, buf) ← logTime texts logger.timeFmt call.now buf headBlock
    let (_, buf) ← lfAllocString buf timeSize
    let buf ← logLevel (logger.levelStr call.level) buf
    let buf ← logMsg call.msg buf headBlock
    some (some (← printed buf headBlock), { logger with buf })

/-! ## A string in one block -/

/-- What comes before the first terminator. -/
theorem takeWhile_terminated {text rest : List UInt8} (noNul : 0 ∉ text) :
    (text ++ 0 :: rest).takeWhile (· ≠ 0) = text := by
  have plain : ∀ c ∈ text, decide (c ≠ 0) = true := by
    intro c member
    exact decide_eq_true fun zero => noNul (zero ▸ member)
  rw [List.takeWhile_append_of_pos plain, List.takeWhile_cons_of_neg (by decide), List.append_nil]

/-- The string has one block, which starts with this text, and of which this many
characters are in use. -/
structure LFString.Buffers (str : LFString UInt8) (p : BlockPtr) (used : ℕ) (text : List UInt8) :
    Prop where
  owner : str.slice = none
  width : str.arena.blockSize = str.charQttInBlock
  offset : str.arena.blockOffset = .left
  slab : ∃ b, Represents str.arena [(p, b)] ∧ b.rightOffset = used ∧
    b.data.read 0 text.length = text

namespace LFString.Buffers

variable {str : LFString UInt8} {p : BlockPtr} {used : ℕ} {text bytes : List UInt8}

theorem headBlock (buffers : str.Buffers p used text) : str.arena.headBlock = some p := by
  obtain ⟨b, rep, -⟩ := buffers.slab
  exact rep.head_eq

/-- A new string. -/
theorem of_init (malloc : Allocator UInt8) {qtt : ℕ} (positive : 0 < qtt) :
    ∃ str p, lfInitString (LFString.declared malloc qtt) = some str ∧
      LFString.Buffers str p 0 [] ∧ str.charQttInBlock = qtt := by
  let declared : Arena UInt8 :=
    { (LFString.declared malloc qtt).arena with blockSize := qtt, blockOffset := .left }
  obtain ⟨arena, init, rep, width, offset, -⟩ :=
    lfInitArena_spec declared (show 0 < declared.blockSize from positive)
  let start : LFString UInt8 := { LFString.declared malloc qtt with arena }
  have started : lfInitString (LFString.declared malloc qtt) = some start := by
    change (lfInitArena declared).bind _ = _
    rw [init]
    rfl
  exact ⟨start, _, started, ⟨rfl, width, offset, _, rep, rfl, rfl⟩, rfl⟩

/-- The block of the string. -/
theorem block (buffers : str.Buffers p used text) : ∃ node, str.arena.heap.block p = some node ∧
    node.size = str.charQttInBlock ∧ node.rightOffset = used := by
  obtain ⟨b, rep, right, -⟩ := buffers.slab
  obtain ⟨node, found, rfl⟩ := rep.lookup (List.mem_singleton_self _)
  have size := rep.sized _ (List.mem_singleton_self _)
  exact ⟨node, found, size.trans buffers.width, right⟩

/-- After a reset nothing is in use. -/
theorem reset (buffers : str.Buffers p used text) :
    ∃ str', lfResetString str = some str' ∧ str'.Buffers p 0 [] ∧
      str'.charQttInBlock = str.charQttInBlock := by
  obtain ⟨owner, width, offset, b, rep, -⟩ := buffers
  obtain ⟨arena, done, rep', keeps, -⟩ := rep.reset
  refine ⟨{ str with arena }, by simp [lfResetString, owner, done], ?_, rfl⟩
  refine ⟨owner, keeps.blockSize.trans width, keeps.blockOffset.trans offset, _, rep', ?_, rfl⟩
  rw [offset]
  rfl

/-- Bytes that are written behind the first characters. -/
theorem store (buffers : str.Buffers p used text) {place : ℕ} (inside : place ≤ text.length)
    (room : place + bytes.length ≤ str.charQttInBlock) :
    ∃ str', str.store ⟨p, place⟩ bytes = some str' ∧
      str'.Buffers p used (text.take place ++ bytes) ∧
      str'.charQttInBlock = str.charQttInBlock := by
  obtain ⟨owner, width, offset, b, rep, right, reads⟩ := buffers
  have member : p ∈ ptrs [(p, b)] := List.mem_singleton_self _
  obtain ⟨heap, stored, rep', keeps⟩ := rep.store member (width ▸ room)
  refine ⟨{ str with arena := { str.arena with heap } }, by simp [LFString.store, stored], ?_, rfl⟩
  refine ⟨owner, width, offset, b.write place bytes, ?_, right, ?_⟩
  · simpa [Deck.modify] using rep'
  · have front : b.data.read 0 place = text.take place := by
      rw [← Area.take_read b.data 0 inside, reads]
    have length : (text.take place ++ bytes).length = place + bytes.length := by
      rw [List.length_append, List.length_take, Nat.min_eq_left inside]
    have before : (b.data.write place bytes).read 0 place = b.data.read 0 place :=
      Area.read_write_apart b.data (.inr (Nat.le_of_eq (Nat.zero_add place)))
    rw [length, ← Area.read_append, Nat.zero_add, Slab.write, before, front,
      Area.read_write_same]

/-- An allocation in the block. -/
theorem alloc (buffers : str.Buffers p used text) {size : ℕ} (positive : 0 < size)
    (room : used + size ≤ str.charQttInBlock) :
    ∃ str', lfAllocString str size = some (⟨p, used⟩, str') ∧
      str'.Buffers p (used + size) text ∧ str'.charQttInBlock = str.charQttInBlock := by
  obtain ⟨owner, width, offset, b, rep, right, reads⟩ := buffers
  have bound : size ≤ str.arena.blockSize := by omega
  obtain ⟨ptr, arena, deck, alloc, tail, rep', keeps, -⟩ := rep.allocAtTail positive bound
  have size_eq : b.size = str.arena.blockSize := rep.sized _ (List.mem_singleton_self _)
  rcases @AllocTail.at_last _ _ _ [] _ _ _ _ tail with ⟨-, rfl, rfl⟩ | ⟨full, -⟩
  · subst right
    refine ⟨{ str with arena }, by simp [lfAllocString, owner, alloc], ?_, rfl⟩
    exact ⟨owner, keeps.blockSize.trans width, keeps.blockOffset.trans offset, _, rep', rfl, reads⟩
  · rw [right, size_eq, sizeSub_of_le (by omega)] at full
    omega

/-- A terminated text at the start of the block is what is printed of it. -/
theorem printed (buffers : str.Buffers p used (text ++ 0 :: bytes)) (noNul : 0 ∉ text)
    (room : (text ++ 0 :: bytes).length ≤ str.charQttInBlock) :
    LowFlow.printed str p = some text := by
  obtain ⟨-, width, -, b, rep, -, reads⟩ := buffers
  have inside : 0 + str.charQttInBlock ≤ str.arena.blockSize := by omega
  have loaded := rep.load (List.mem_singleton_self _) inside
  have whole := Area.read_append b.data 0 (text ++ 0 :: bytes).length
    (str.charQttInBlock - (text ++ 0 :: bytes).length)
  rw [Nat.add_sub_of_le room, reads, List.append_assoc, List.cons_append] at whole
  rw [LowFlow.printed, loaded, ← whole]
  simp only [Option.bind_eq_bind, Option.bind_some, List.mem_append, List.mem_cons, true_or,
    or_true, ↓reduceIte, takeWhile_terminated noNul]

end LFString.Buffers

/-! ## Loggers in memory -/

/-- The bytes of a format. -/
def formatBytes (timeFmt : String) : List UInt8 := timeFmt.toUTF8.data.toList

/-- The logger that the members lead to. -/
def Logger.load (logger : Logger) (isColored : Bool) (objects : Objects) : Option LFLogger := do
  let buf ← logger.buf.load objects
  let timeFmt ← logger.timeFmt.value
  some { minLevel := logger.minLevel.value, buf, timeFmt := formatBytes timeFmt, isColored }

/-- A string without a slice is found where it is saved. -/
theorem StringMembers.load_save {str : StringMembers} (objects : Objects) {value : LFString UInt8}
    (address : str.arena.value ≠ 0) (slice : str.slice.value = 0) (owner : value.slice = none)
    (qtt : value.charQttInBlock = str.charQttInBlock.value) :
    str.load (str.save objects value) = some value := by
  obtain ⟨arena, backing, charQttInBlock⟩ := value
  subst owner qtt
  simp only [load, save, address, slice, Function.update_self, ↓reduceIte, Option.bind_eq_bind,
    Option.bind_some]

/-- `lf_init_logger` on a logger in memory makes the same logger, when its string has a
declared arena and no slice. -/
theorem lfInitLogger_load {logger : Logger} {objects : Objects} {malloc : Allocator UInt8}
    (isColored : Bool) (address : logger.buf.arena.value ≠ 0) (slice : logger.buf.slice.value = 0)
    (found : objects.arenas logger.buf.arena.value = some (Arena.declared malloc 0 .left)) :
    ∃ logger' objects', (lfInitLogger logger objects).result = some (logger', objects') ∧
      logger'.load isColored objects' =
        LFLogger.init malloc logger.minLevel.value (logger.timeFmt.value.map formatBytes)
          isColored := by
  obtain ⟨start, p, made, buffers, qtt⟩ :=
    LFString.Buffers.of_init malloc (show 0 < loggerBufCharQttInBlock by decide)
  let str : StringMembers := { logger.buf with charQttInBlock := .stored loggerBufCharQttInBlock }
  have loaded : str.load objects = some (LFString.declared malloc loggerBufCharQttInBlock) := by
    simp only [StringMembers.load, str, address, slice, found, ↓reduceIte, Option.bind_eq_bind,
      Option.bind_some]
    rfl
  have initialized : (initStringMembers str objects).result = some (str.save objects start) := by
    rw [initStringMembers, Recording.result_bind rfl, Recording.ofOption_bind loaded,
      Recording.ofOption_bind made]
    rfl
  have again : str.load (str.save objects start) = some start :=
    StringMembers.load_save objects address slice buffers.owner qtt
  refine ⟨⟨logger.minLevel, str, _⟩, _, Recording.result_bind initialized, ?_⟩
  have default : formatBytes "%Y-%m-%d %H:%M:%S" = defaultTimeFmt := by decide
  simp only [Logger.load, LFLogger.init, again, made, Option.bind_eq_bind, Option.bind_some]
  cases given : logger.timeFmt.value with
  | none => simp [Member.value, default]
  | some timeFmt => simp [given]

/-! ## Lines -/

/-- The time that a line starts with. -/
def LFLogger.shownTime (texts : TimeTexts) (logger : LFLogger) (now : ℕ) : List UInt8 :=
  let text := texts.strftime logger.timeFmt now
  if text = [] ∨ loggerBufCharQttInBlock ≤ text.length then noTime else text

theorem LFLogger.shownTime_ne_nil {texts : TimeTexts} (logger : LFLogger) {now : ℕ} :
    logger.shownTime texts now ≠ [] := by
  simp only [LFLogger.shownTime]
  split_ifs with unshown
  · decide
  · exact fun empty => unshown (.inl empty)

/-- The line of a call. -/
def LFLogger.line (texts : TimeTexts) (logger : LFLogger) (call : LogCall) : List UInt8 :=
  logger.shownTime texts call.now ++ ([32] ++ logger.levelStr call.level ++ [32]) ++ call.msg ++
    [10]

section Lines

variable {texts : TimeTexts} {buf : LFString UInt8} {p : BlockPtr} {used : ℕ}
  {text : List UInt8} {logger : LFLogger}

/-- `strftime` writes the time that is shown, or gives no time. -/
theorem strftimeTo_spec (buffers : buf.Buffers p used text)
    (qtt : buf.charQttInBlock = loggerBufCharQttInBlock) (now : ℕ) :
    ∃ size buf' text', strftimeTo texts logger.timeFmt now buf p = some (size, buf') ∧
      buf'.Buffers p used text' ∧ buf'.charQttInBlock = loggerBufCharQttInBlock ∧
      (size = 0 ∧ logger.shownTime texts now = noTime ∨
        size ≠ 0 ∧ size = (logger.shownTime texts now).length ∧
          text' = logger.shownTime texts now ++ [0]) := by
  simp only [strftimeTo, LFLogger.shownTime, qtt]
  generalize texts.strftime logger.timeFmt now = time
  by_cases room : time.length + 1 ≤ loggerBufCharQttInBlock
  · have length : 0 + (time ++ [0]).length ≤ buf.charQttInBlock := by
      rw [qtt, List.length_append, Nat.zero_add]
      exact room
    have fits : ¬ loggerBufCharQttInBlock ≤ time.length := Nat.not_le.mpr room
    obtain ⟨buf', stored, buffers', same⟩ := buffers.store (Nat.zero_le _) length
    refine ⟨time.length, buf', _, by simp only [room, stored, ↓reduceIte]; rfl, buffers',
      same.trans qtt, ?_⟩
    cases time with
    | nil => exact .inl ⟨rfl, if_pos (.inl rfl)⟩
    | cons c time =>
        have shown : (if c :: time = [] ∨ loggerBufCharQttInBlock ≤ (c :: time).length then noTime
            else c :: time) = c :: time := if_neg (not_or.mpr ⟨List.cons_ne_nil _ _, fits⟩)
        rw [shown]
        exact .inr ⟨Nat.succ_ne_zero _, rfl, rfl⟩
  · have length : 0 + ((texts.scratch logger.timeFmt now).take loggerBufCharQttInBlock).length ≤
        buf.charQttInBlock := by
      rw [qtt, Nat.zero_add]
      exact List.length_take_le ..
    obtain ⟨buf', stored, buffers', same⟩ := buffers.store (Nat.zero_le _) length
    refine ⟨0, buf', _, by simp only [room, stored, ↓reduceIte]; rfl, buffers', same.trans qtt,
      .inl ⟨rfl, if_pos (.inr (Nat.le_of_lt_succ (Nat.not_le.mp room)))⟩⟩

/-- The time stands at the start of the block. -/
theorem logTime_spec (buffers : buf.Buffers p used text)
    (qtt : buf.charQttInBlock = loggerBufCharQttInBlock) (now : ℕ) :
    ∃ buf', logTime texts logger.timeFmt now buf p =
        some ((logger.shownTime texts now).length, buf') ∧
      buf'.Buffers p used (logger.shownTime texts now ++ [0]) ∧
      buf'.charQttInBlock = loggerBufCharQttInBlock := by
  obtain ⟨size, buf₁, text₁, written, buffers₁, qtt₁, shown⟩ :=
    @strftimeTo_spec texts buf p used text logger buffers qtt now
  rcases shown with ⟨rfl, zeros⟩ | ⟨some_chars, rfl, rfl⟩
  · have length : 0 + (noTime ++ [0]).length ≤ buf₁.charQttInBlock := by
      rw [qtt₁]
      decide
    obtain ⟨buf', stored, buffers', same⟩ := buffers₁.store (Nat.zero_le _) length
    rw [zeros]
    refine ⟨buf', ?_, buffers', same.trans qtt₁⟩
    simp only [logTime, written, stored, Option.bind_eq_bind, Option.bind_some, ↓reduceIte]
    rfl
  · refine ⟨buf₁, ?_, buffers₁, qtt₁⟩
    simp only [logTime, written, some_chars, Option.bind_eq_bind, Option.bind_some, ↓reduceIte]

theorem logLevel_spec (buffers : buf.Buffers p used (text ++ [0])) (filled : used = text.length)
    {levelStr : List UInt8} (room : used + (levelStr.length + 2) ≤ buf.charQttInBlock) :
    ∃ buf', logLevel levelStr buf = some buf' ∧
      buf'.Buffers p (used + (levelStr.length + 2)) (text ++ ([32] ++ levelStr ++ [32])) ∧
      buf'.charQttInBlock = buf.charQttInBlock := by
  obtain ⟨buf₁, alloc, buffers₁, same₁⟩ := buffers.alloc (Nat.succ_pos _) room
  have length : ([32] ++ levelStr ++ [32]).length = levelStr.length + 2 := by simp
  have inside : used ≤ (text ++ [0]).length := by
    rw [filled, List.length_append]
    exact Nat.le_add_right ..
  obtain ⟨buf', stored, buffers', same'⟩ := buffers₁.store inside
    (show used + ([32] ++ levelStr ++ [32]).length ≤ buf₁.charQttInBlock by
      rw [length, same₁]; exact room)
  rw [filled, List.take_left, ← filled] at buffers'
  refine ⟨buf', ?_, buffers', same'.trans same₁⟩
  simp only [logLevel, alloc, Option.bind_eq_bind, Option.bind_some]
  exact stored

theorem logMsg_spec (buffers : buf.Buffers p used text) (filled : used = text.length)
    {msg : List UInt8} (room : used + (msg.length + 1) < buf.charQttInBlock) :
    ∃ buf', logMsg msg buf p = some buf' ∧
      buf'.Buffers p (used + (msg.length + 1)) (text ++ msg ++ [10, 0]) ∧
      buf'.charQttInBlock = buf.charQttInBlock := by
  obtain ⟨node, found, size, right⟩ := buffers.block
  have remaining : sizeSub node.size used = buf.charQttInBlock - used := by
    rw [size, sizeSub_of_le (by omega)]
  have some_room : buf.charQttInBlock - used ≠ 0 := by omega
  have whole : msg.take (buf.charQttInBlock - used - 1) = msg :=
    List.take_of_length_le (by omega)
  obtain ⟨buf₁, stored₁, buffers₁, same₁⟩ := buffers.store (Nat.le_of_eq filled)
    (show used + (msg ++ [0]).length ≤ buf.charQttInBlock by
      rw [List.length_append, List.length_singleton]; exact le_of_lt room)
  rw [List.take_of_length_le (Nat.le_of_eq filled.symm)] at buffers₁
  have inside : used + msg.length ≤ (text ++ (msg ++ [0])).length := by
    simp only [List.length_append, filled]
    omega
  obtain ⟨buf₂, stored₂, buffers₂, same₂⟩ := buffers₁.store inside
    (show used + msg.length + ([10, 0] : List UInt8).length ≤ buf₁.charQttInBlock by
      rw [same₁]; simp only [List.length_cons, List.length_nil]; omega)
  have front : (text ++ (msg ++ [0])).take (used + msg.length) = text ++ msg := by
    rw [← List.append_assoc, filled, ← List.length_append, List.take_left]
  rw [front] at buffers₂
  have some_chars : 0 < msg.length + 1 := Nat.succ_pos _
  obtain ⟨buf', alloc, buffers', same'⟩ := buffers₂.alloc some_chars
    (by rw [same₂, same₁]; exact le_of_lt room)
  refine ⟨buf', ?_, buffers', same'.trans (same₂.trans same₁)⟩
  have enough : msg.length + 1 < buf.charQttInBlock - used := by omega
  simp only [logMsg, vsnprintf, found, right, remaining, some_room, whole, stored₁, enough,
    stored₂, alloc, Option.bind_eq_bind, Option.bind_some, ↓reduceIte]

/-! ### What no part of a line changes -/

theorem LFString.store_qtt {str str' : LFString UInt8} {ptr : Ptr} {bytes : List UInt8}
    (stored : str.store ptr bytes = some str') : str'.charQttInBlock = str.charQttInBlock := by
  simp only [LFString.store, Option.bind_eq_bind, Option.bind_eq_some_iff] at stored
  obtain ⟨heap, -, same⟩ := stored
  cases same
  rfl

theorem lfAllocString_qtt {str str' : LFString UInt8} {size : ℕ} {ptr : Ptr}
    (alloc : lfAllocString str size = some (ptr, str')) :
    str'.charQttInBlock = str.charQttInBlock := by
  simp only [lfAllocString] at alloc
  split at alloc
  · simp only [Option.bind_eq_bind, Option.bind_eq_some_iff, Option.some.injEq] at alloc
    obtain ⟨⟨strPtr, slice, arena⟩, -, ptr', -, same⟩ := alloc
    cases same
    rfl
  · simp only [Option.bind_eq_bind, Option.bind_eq_some_iff, Option.some.injEq] at alloc
    obtain ⟨⟨strPtr, arena⟩, -, same⟩ := alloc
    cases same
    rfl

theorem lfResetString_qtt {str str' : LFString UInt8} (reset : lfResetString str = some str') :
    str'.charQttInBlock = str.charQttInBlock := by
  by_cases owner : str.slice.isSome
  · simp [lfResetString, owner] at reset
  · simp only [lfResetString, owner, Bool.false_eq_true, ↓reduceIte, Option.bind_eq_bind,
      Option.bind_eq_some_iff] at reset
    obtain ⟨arena, -, same⟩ := reset
    cases same
    rfl

theorem logTime_qtt {timeFmt : List UInt8} {now size : ℕ} {buf' : LFString UInt8}
    (logged : logTime texts timeFmt now buf p = some (size, buf')) :
    buf'.charQttInBlock = buf.charQttInBlock := by
  simp only [logTime, Option.bind_eq_bind, Option.bind_eq_some_iff, Prod.exists] at logged
  obtain ⟨size', buf₁, written, logged⟩ := logged
  have first : buf₁.charQttInBlock = buf.charQttInBlock := by
    simp only [strftimeTo] at written
    split at written
    all_goals
      simp only [Option.bind_eq_bind, Option.bind_eq_some_iff, Option.some.injEq,
        Prod.mk.injEq] at written
      obtain ⟨buf₂, stored, -, rfl⟩ := written
      exact LFString.store_qtt stored
  split at logged
  · simp only [Option.bind_eq_some_iff, Option.some.injEq, Prod.mk.injEq] at logged
    obtain ⟨buf₂, stored, -, rfl⟩ := logged
    exact (LFString.store_qtt stored).trans first
  · cases logged
    exact first

theorem logLevel_qtt {levelStr : List UInt8} {buf' : LFString UInt8}
    (logged : logLevel levelStr buf = some buf') :
    buf'.charQttInBlock = buf.charQttInBlock := by
  simp only [logLevel, Option.bind_eq_bind, Option.bind_eq_some_iff, Prod.exists] at logged
  obtain ⟨ptr, buf₁, alloc, stored⟩ := logged
  exact (LFString.store_qtt stored).trans (lfAllocString_qtt alloc)

theorem logMsg_qtt {msg : List UInt8} {buf' : LFString UInt8}
    (logged : logMsg msg buf p = some buf') : buf'.charQttInBlock = buf.charQttInBlock := by
  simp only [logMsg, Option.bind_eq_bind, Option.bind_eq_some_iff] at logged
  obtain ⟨node, -, buf₁, written, logged⟩ := logged
  have first : buf₁.charQttInBlock = buf.charQttInBlock := by
    rw [vsnprintf] at written
    split at written
    · cases written
      rfl
    · exact LFString.store_qtt written
  split at logged
  · simp only [Option.bind_eq_some_iff, Option.some.injEq, Prod.exists] at logged
    obtain ⟨buf₂, stored, ptr, buf₃, alloc, rfl⟩ := logged
    exact (lfAllocString_qtt alloc).trans ((LFString.store_qtt stored).trans first)
  · cases logged

/-- A printed text ends before its block does. -/
theorem printed_short (shown : printed buf p = some text) :
    text.length < buf.charQttInBlock := by
  simp only [printed, Option.bind_eq_bind, Option.bind_eq_some_iff] at shown
  obtain ⟨bytes, loaded, shown⟩ := shown
  have length : bytes.length = buf.charQttInBlock := by
    simp only [Heap.load, Option.bind_eq_bind, Option.bind_eq_some_iff] at loaded
    obtain ⟨node, -, loaded⟩ := loaded
    split at loaded
    · cases loaded
      exact Area.length_read ..
    · cases loaded
  split at shown
  · rename_i terminated
    cases shown
    rw [← length]
    refine lt_of_le_of_ne (List.takeWhile_prefix _).length_le ?_
    intro same
    have whole := (List.takeWhile_prefix _).eq_of_length same
    rw [List.takeWhile_eq_self_iff] at whole
    exact of_decide_eq_true (whole 0 terminated) rfl
  · cases shown

end Lines

/-! ## Runs of calls -/

/-- The logger has the settings of the first one, and a string in one block. -/
structure LFLogger.Ready (start logger : LFLogger) : Prop where
  minLevel : logger.minLevel = start.minLevel
  timeFmt : logger.timeFmt = start.timeFmt
  isColored : logger.isColored = start.isColored
  qtt : logger.buf.charQttInBlock = loggerBufCharQttInBlock
  buffers : ∃ p used text, logger.buf.Buffers p used text

/-- What the calls of a run are meant to print. -/
def LFLogger.meant (texts : TimeTexts) (logger : LFLogger) (call : LogCall) :
    Option (List UInt8) :=
  if call.level.value < logger.minLevel.value then none else some (logger.line texts call)

section Runs

variable {texts : TimeTexts} {start logger logger' : LFLogger} {call : LogCall}

theorem LFLogger.Ready.line_eq (ready : start.Ready logger) :
    logger.line texts call = start.line texts call := by
  simp only [LFLogger.line, LFLogger.shownTime, LFLogger.levelStr, ready.timeFmt, ready.isColored]

/-- A call below the least level changes nothing. -/
theorem lfLog_quiet (quiet : call.level.value < logger.minLevel.value) :
    lfLog texts call logger = some (none, logger) := by
  simp only [lfLog, quiet, ↓reduceIte]

/-- A line that fits is printed. -/
theorem lfLog_fits (ready : start.Ready logger)
    (loud : ¬ call.level.value < start.minLevel.value)
    (noNul : 0 ∉ start.line texts call)
    (fits : (start.line texts call).length < loggerBufCharQttInBlock) :
    ∃ logger', lfLog texts call logger = some (some (start.line texts call), logger') ∧
      start.Ready logger' := by
  rw [← ready.line_eq] at noNul fits ⊢
  obtain ⟨p, used, text, buffers⟩ := ready.buffers
  obtain ⟨buf₁, reset, buffers₁, qtt₁⟩ := buffers.reset
  obtain ⟨buf₂, time, buffers₂, qtt₂⟩ :=
    @logTime_spec texts buf₁ p 0 [] logger buffers₁ (qtt₁.trans ready.qtt) call.now
  have length : (logger.line texts call).length = (logger.shownTime texts call.now).length +
      ((logger.levelStr call.level).length + 2) + (call.msg.length + 1) := by
    simp only [LFLogger.line, List.length_append, List.length_cons, List.length_nil]
    omega
  have some_time : 0 < (logger.shownTime texts call.now).length :=
    List.length_pos_of_ne_nil logger.shownTime_ne_nil
  obtain ⟨buf₃, alloc, buffers₃, qtt₃⟩ := buffers₂.alloc some_time (by omega)
  obtain ⟨buf₄, level, buffers₄, qtt₄⟩ := logLevel_spec buffers₃ (Nat.zero_add _)
    (show 0 + (logger.shownTime texts call.now).length +
      ((logger.levelStr call.level).length + 2) ≤ buf₃.charQttInBlock by omega)
  have filled : 0 + (logger.shownTime texts call.now).length +
      ((logger.levelStr call.level).length + 2) =
      (logger.shownTime texts call.now ++ ([32] ++ logger.levelStr call.level ++ [32])).length := by
    simp only [List.length_append, List.length_cons, List.length_nil]
    omega
  obtain ⟨buf₅, msg, buffers₅, qtt₅⟩ := logMsg_spec buffers₄ filled
    (show 0 + (logger.shownTime texts call.now).length +
      ((logger.levelStr call.level).length + 2) + (call.msg.length + 1) < buf₄.charQttInBlock by
        omega)
  have terminated : logger.shownTime texts call.now ++
      ([32] ++ logger.levelStr call.level ++ [32]) ++ call.msg ++ [10, 0] =
      logger.line texts call ++ 0 :: [] := by
    simp [LFLogger.line]
  have qtt : buf₅.charQttInBlock = loggerBufCharQttInBlock := by omega
  rw [terminated] at buffers₅
  have shown := buffers₅.printed noNul (by rw [List.length_append, qtt]; exact fits)
  refine ⟨{ logger with buf := buf₅ }, ?_, ready.minLevel, ready.timeFmt, ready.isColored, qtt,
    p, _, _, buffers₅⟩
  rw [← ready.minLevel] at loud
  simp only [lfLog, loud, reset, buffers₁.headBlock, time, alloc, level, msg, shown,
    Option.bind_eq_bind, Option.bind_some, ↓reduceIte]

/-- A call whose line fits, if it has one, prints what it is meant to. -/
theorem lfLog_meant (ready : start.Ready logger) (noNul : 0 ∉ start.line texts call)
    (fits : start.minLevel.value ≤ call.level.value →
      (start.line texts call).length < loggerBufCharQttInBlock) :
    ∃ logger', lfLog texts call logger = some (start.meant texts call, logger') ∧
      start.Ready logger' := by
  by_cases quiet : call.level.value < start.minLevel.value
  · rw [LFLogger.meant, if_pos quiet]
    exact ⟨logger, lfLog_quiet (ready.minLevel ▸ quiet), ready⟩
  · rw [LFLogger.meant, if_neg quiet]
    exact lfLog_fits ready quiet noNul (fits (Nat.not_lt.mp quiet))

/-- What is printed is shorter than a block. -/
theorem lfLog_short {text : List UInt8} (ready : start.Ready logger)
    (logged : lfLog texts call logger = some (some text, logger')) :
    text.length < loggerBufCharQttInBlock := by
  rw [lfLog] at logged
  split at logged
  · cases logged
  simp only [Option.bind_eq_bind, Option.bind_eq_some_iff, Option.some.injEq, Prod.exists,
    Prod.mk.injEq] at logged
  obtain ⟨buf₁, reset, p, -, size, buf₂, time, ptr, buf₃, alloc, buf₄, level, buf₅, msg, text',
    shown, rfl, -⟩ := logged
  have qtt : buf₅.charQttInBlock = loggerBufCharQttInBlock :=
    (logMsg_qtt msg).trans ((logLevel_qtt level).trans ((lfAllocString_qtt alloc).trans
      ((logTime_qtt time).trans ((lfResetString_qtt reset).trans ready.qtt))))
  exact qtt ▸ printed_short shown

/-- A new logger has a string in one block. -/
theorem LFLogger.init_ready (malloc : Allocator UInt8) (minLevel : LogLevel)
    (timeFmt : Option (List UInt8)) (isColored : Bool) :
    ∃ start, LFLogger.init malloc minLevel timeFmt isColored = some start ∧
      start.minLevel = minLevel ∧ start.Ready start := by
  obtain ⟨buf, p, started, buffers, qtt⟩ :=
    LFString.Buffers.of_init malloc (show 0 < loggerBufCharQttInBlock by decide)
  refine ⟨⟨minLevel, buf, timeFmt.getD defaultTimeFmt, isColored⟩, ?_, rfl, rfl, rfl, rfl, qtt, p,
    0, [], buffers⟩
  simp only [LFLogger.init, started, Option.bind_eq_bind, Option.bind_some]

/-- No line has a terminator in it. -/
theorem LFLogger.noNul_line (logger : LFLogger) (noNul : ∀ fmt now, 0 ∉ texts.strftime fmt now)
    (noNul' : 0 ∉ call.msg) : 0 ∉ logger.line texts call := by
  have time : 0 ∉ logger.shownTime texts call.now := by
    simp only [LFLogger.shownTime]
    split_ifs
    · decide
    · exact noNul _ _
  have level : 0 ∉ logger.levelStr call.level := by
    rw [LFLogger.levelStr]
    cases call.level <;> cases logger.isColored <;> decide
  simp [LFLogger.line, time, level, noNul']

/-- **A logger prints its lines** exactly when each of them fits in the block of its
string, with the terminator. Calls below the least level print nothing, and no call
disturbs the lines of later ones. -/
theorem logs_lines_iff (texts : TimeTexts) (noNul : ∀ fmt now, 0 ∉ texts.strftime fmt now)
    (malloc : Allocator UInt8) (minLevel : LogLevel) (timeFmt : Option (List UInt8))
    (isColored : Bool) (calls : List LogCall) (noNul' : ∀ call ∈ calls, 0 ∉ call.msg) :
    ∃ start, LFLogger.init malloc minLevel timeFmt isColored = some start ∧
      ((∃ logger, run (lfLog texts) calls start =
          some (calls.map (start.meant texts), logger)) ↔
        ∀ call ∈ calls, minLevel.value ≤ call.level.value →
          (start.line texts call).length < loggerBufCharQttInBlock) := by
  obtain ⟨start, init, rfl, ready⟩ := LFLogger.init_ready malloc minLevel timeFmt isColored
  refine ⟨start, init, ?_⟩
  have runs : ∀ logger, start.Ready logger → ((∃ logger', run (lfLog texts) calls logger =
      some (calls.map (start.meant texts), logger')) ↔
        ∀ call ∈ calls, start.minLevel.value ≤ call.level.value →
          (start.line texts call).length < loggerBufCharQttInBlock) := by
    clear init ready
    induction calls with
    | nil => simp
    | cons call calls ih =>
        intro logger ready
        obtain ⟨here, noNul'⟩ := List.forall_mem_cons.mp noNul'
        have clean := start.noNul_line noNul here
        rw [List.forall_mem_cons, List.map_cons]
        by_cases fits : start.minLevel.value ≤ call.level.value →
            (start.line texts call).length < loggerBufCharQttInBlock
        · -- the call prints what it is meant to, so the others decide
          obtain ⟨logger₁, logged, ready₁⟩ := lfLog_meant ready clean fits
          rw [and_iff_right fits, ← ih noNul' logger₁ ready₁]
          constructor
          · rintro ⟨logger', runs⟩
            obtain ⟨answer, logger₂, others, taken, onward, same⟩ := run_cons_iff.mp runs
            obtain ⟨-, rfl⟩ := Prod.mk.inj (Option.some.inj (logged.symm.trans taken))
            obtain ⟨-, rfl⟩ := List.cons.inj same
            exact ⟨logger', onward⟩
          · rintro ⟨logger', onward⟩
            exact ⟨logger', run_cons logged onward⟩
        · -- what is printed is shorter than the line
          refine iff_of_false ?_ fun all => fits all.1
          rintro ⟨logger', runs⟩
          obtain ⟨loud, long⟩ := Classical.not_imp.mp fits
          obtain ⟨answer, logger₁, others, taken, -, same⟩ := run_cons_iff.mp runs
          obtain ⟨rfl, -⟩ := List.cons.inj same
          rw [LFLogger.meant, if_neg (Nat.not_lt.mpr loud)] at taken
          exact long (lfLog_short ready taken)
  exact runs start ready

/-- Two calls, the first of which is below the least level. -/
theorem logs_lines_iff_two : ∃ (texts : TimeTexts) (start : LFLogger),
    LFLogger.init (Allocator.bump 0) .info none true = some start ∧
      ((∃ logger, run (lfLog texts) [⟨.debug, 0, [104, 105]⟩, ⟨.error, 1, [111]⟩] start =
          some ([⟨.debug, 0, [104, 105]⟩, ⟨.error, 1, [111]⟩].map (start.meant texts), logger)) ↔
        ∀ call ∈ [⟨.debug, 0, [104, 105]⟩, ⟨.error, 1, [111]⟩],
          LogLevel.info.value ≤ call.level.value →
          (start.line texts call).length < loggerBufCharQttInBlock) := by
  have noNul : (0 : UInt8) ∉ [49] := by decide
  exact ⟨⟨fun _ _ => [49], fun _ _ => []⟩,
    logs_lines_iff _ (fun _ _ => noNul) (Allocator.bump 0) .info none true _ (by decide)⟩

end Runs

end LowFlow
