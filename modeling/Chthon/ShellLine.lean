import Chthon.Lib.LineEditor
import Chthon.StringFunctions

/-! The line of the kernel shell, `shell` in `user/shell.c`: the loop that edits it, the split at the
first space and the choice of the command. The loop is left at CR or LF, which ends the text with a
NUL, or when the buffer is full, and then the byte behind the text is what it was before. -/

namespace Chthon.Shell

open ByteMemory LineEditor

def maxInput : Nat := 256

/-- What the input loop leaves: memory, `pos`, the characters it has put and the keys not read. -/
structure LineRead where
  mem : Memory
  pos : Nat
  out : Str
  rest : Str

/-- Characters put in front of what follows. -/
def LineRead.after (out : Str) (r : LineRead) : LineRead := { r with out := out ++ r.out }

/-- The input loop with its buffer at `input`; `none` while it waits for a key. -/
def inputLoop (m : Memory) (input pos : Nat) : Str → Option LineRead
  | [] => if pos < maxInput - 1 then none else some ⟨m, pos, [], []⟩
  | c :: keys =>
      if pos < maxInput - 1 then
        if c = 13 ∨ c = 10 then some ⟨Function.update m (input + pos) 0, pos, [10], keys⟩
        else if (c = 127 ∨ c = 8) ∧ pos > 0 then
          (inputLoop m input (pos - 1) keys).map (.after [8, 32, 8])
        else if c ≥ 32 ∧ c ≤ 126 then
          (inputLoop (Function.update m (input + pos) c) input (pos + 1) keys).map (.after [c])
        else inputLoop m input pos keys
      else some ⟨m, pos, [], c :: keys⟩

/-- The first space becomes the end of `cmd`, and `args` is behind it. -/
def splitArgs (m : Memory) (input pos : Nat) : Memory × Option Nat :=
  match (List.range pos).find? fun i => m (input + i) = 32 with
  | some i => (Function.update m (input + i) 0, some (input + (i + 1)))
  | none => (m, none)

inductive Command where
  | exit | echo | pwd | cd | ls | cp | touch | mv | rm | mkdir | bind | unbind | unknown
  deriving DecidableEq

/-- The comparisons in their order. -/
def commands : List (Str × Command) :=
  [(ascii "exit", .exit), (ascii "echo", .echo), (ascii "pwd", .pwd), (ascii "cd", .cd),
    (ascii "ls", .ls), (ascii "cp", .cp), (ascii "touch", .touch), (ascii "mv", .mv),
    (ascii "rm", .rm), (ascii "mkdir", .mkdir), (ascii "bind", .bind), (ascii "unbind", .unbind)]

def dispatch (m : Memory) (cmd : Nat) : Command :=
  ((commands.find? fun c => strEq m cmd c.1).map Prod.snd).getD .unknown

/-! What the line is for. -/

/-- Backspace and DEL erase, the printable characters are put, and other keys do nothing. -/
def key (c : UInt8) : Option (Key UInt8) :=
  if c = 127 ∨ c = 8 then some .erase else if c ≥ 32 ∧ c ≤ 126 then some (.put c) else none

/-- The line as edited by the keys. -/
def editedLine (keys : Str) : Str := typed 255 (keys.filterMap key)

/-- None of the keys comes behind the end of the line. -/
structure OneLine (keys : Str) : Prop where
  plain : ∀ c ∈ keys, ¬ (c = 13 ∨ c = 10)
  room : ∀ k < keys.length, (editedLine (keys.take k)).length < 255

/-- The keys of a line: up to CR or LF, or until the line is full. -/
structure LineKeys (stream keys rest : Str) : Prop extends OneLine keys where
  ends : (editedLine keys).length < 255 ∧ (∃ c, (c = 13 ∨ c = 10) ∧ stream = keys ++ c :: rest) ∨
    (editedLine keys).length = 255 ∧ stream = keys ++ rest

/-- The command word of a line. -/
def commandWord (line : Str) : Str := line.takeWhile (· ≠ 32)

/-- What is behind its first space, if it has one. -/
def commandArgs (line : Str) : Option Str :=
  match line.dropWhile (· ≠ 32) with
  | [] => none
  | _ :: args => some args

/-- The command that a word names. -/
def named (word : Str) : Command := ((commands.find? fun c => c.1 = word).map Prod.snd).getD .unknown

/-- The buffer holds the line and its NUL, and the command of its first word is called, with the rest
of the line as its arguments. -/
structure Dispatches (input : Nat) (r : LineRead) (line : Str) : Prop where
  text : CStringAt r.mem input line
  command : dispatch (splitArgs r.mem input r.pos).1 input = named (commandWord line)
  cmd : CStringAt (splitArgs r.mem input r.pos).1 input (commandWord line)
  args : Option.Rel (CStringAt (splitArgs r.mem input r.pos).1) (splitArgs r.mem input r.pos).2
    (commandArgs line)

section Editing

variable {m m₀ : Memory} {input : Nat} {line pre stream : Str} {c : UInt8} {r : LineRead}

/-- The line is in the buffer, and the memory is otherwise as it was; the last byte of the buffer is
never a part of the line. -/
structure Held (m₀ : Memory) (input : Nat) (m : Memory) (text : Str) : Prop where
  chars : ∀ k c, text[k]? = some c → m (input + k) = c
  outside : ∀ x, (x < input ∨ input + 255 ≤ x) → m x = m₀ x

theorem Held.put (h : Held m₀ input m line) (hroom : line.length < 255) (c : UInt8) :
    Held m₀ input (Function.update m (input + line.length) c) (line ++ [c]) where
  chars k d hd := by
    rcases Nat.lt_trichotomy k line.length with hlt | rfl | hgt
    · rw [List.getElem?_append_left hlt] at hd
      rw [Function.update_of_ne (by omega), h.chars k d hd]
    · rw [List.getElem?_concat_length] at hd
      rw [Function.update_self]
      exact Option.some.inj hd
    · rw [List.getElem?_eq_none (by simp; omega)] at hd
      cases hd
  outside x hx := by
    rw [Function.update_of_ne (by omega), h.outside x hx]

theorem Held.erase (h : Held m₀ input m line) : Held m₀ input m line.dropLast where
  chars k c hc := by
    rw [List.getElem?_dropLast] at hc
    split_ifs at hc
    exact h.chars k c hc
  outside := h.outside

/-- The NUL is behind the line. -/
theorem Held.terminate (h : Held m₀ input m line) (hroom : line.length < 255) :
    Held m₀ input (Function.update m (input + line.length) 0) line where
  chars k c hc := by
    have hk := (List.getElem?_eq_some_iff.mp hc).1
    rw [Function.update_of_ne (by omega), h.chars k c hc]
  outside x hx := by
    rw [Function.update_of_ne (by omega), h.outside x hx]

/-- The line after one more key. -/
theorem editedLine_concat (pre : Str) (c : UInt8) :
    editedLine (pre ++ [c]) = ((key c).map (edit 255 (editedLine pre))).getD (editedLine pre) := by
  rw [editedLine, List.filterMap_append]
  cases hkey : key c with
  | none => simp [hkey, editedLine]
  | some k => simp [hkey, editedLine, typed_concat]

/-- No key puts a NUL, so the line has none. -/
theorem editedLine_nul_free (keys : Str) : 0 ∉ editedLine keys := by
  induction keys using List.reverseRecOn with
  | nil => exact List.not_mem_nil
  | append_singleton keys c ih =>
      rw [editedLine_concat, key]
      split_ifs with herase hprintable
      · exact fun h => ih (List.mem_of_mem_dropLast h)
      · intro h
        simp only [Option.map_some, Option.getD_some, edit] at h
        split_ifs at h
        · rcases List.mem_append.mp h with h | h
          · exact ih h
          · rw [← List.mem_singleton.mp h] at hprintable
            exact absurd hprintable.1 (by decide)
        · exact ih h
      · exact ih

/-- No key puts a backspace. -/
theorem put_backspace (keys : Str) : Key.put 8 ∉ keys.filterMap key := by
  intro h
  obtain ⟨c, -, hc⟩ := List.mem_filterMap.mp h
  rw [key] at hc
  split_ifs at hc with herase hprintable
  · cases hc
  · cases hc
    exact herase (.inr rfl)

/-- What the loop has done when it is left, after the keys `pre` and then `keys`. -/
structure LineDone (m₀ : Memory) (input : Nat) (pre stream keys : Str) (r : LineRead) : Prop where
  consumed : LineKeys (pre ++ stream) (pre ++ keys) r.rest
  pos : r.pos = (editedLine (pre ++ keys)).length
  held : Held m₀ input r.mem (editedLine (pre ++ keys))
  nul : (editedLine (pre ++ keys)).length < 255 → r.mem (input + r.pos) = 0
  out : r.out = (echoes 255 32 (editedLine pre) (keys.filterMap key)).map (Output.sent 8) ++
    if (editedLine (pre ++ keys)).length < 255 then [10] else []

/-- A key in front of the others. -/
theorem LineDone.cons {keys : Str} (h : LineDone m₀ input (pre ++ [c]) stream keys r) (out : Str)
    (hout : out = (echoes 255 32 (editedLine pre) ([c].filterMap key)).map (Output.sent 8)) :
    LineDone m₀ input pre (c :: stream) (c :: keys) (r.after out) := by
  have hstream : pre ++ c :: stream = pre ++ [c] ++ stream := by simp
  have hkeys : pre ++ c :: keys = pre ++ [c] ++ keys := by simp
  have hecho : echoes 255 32 (editedLine pre) ((c :: keys).filterMap key) =
      echoes 255 32 (editedLine pre) ([c].filterMap key) ++
        echoes 255 32 (editedLine (pre ++ [c])) (keys.filterMap key) := by
    rw [editedLine_concat]
    cases hkey : key c with
    | none => simp [hkey, echoes]
    | some k => simp [hkey, echoes]
  refine ⟨?_, ?_, ?_, ?_, ?_⟩
  · rw [hstream, hkeys]
    exact h.consumed
  · rw [hkeys]
    exact h.pos
  · rw [hkeys]
    exact h.held
  · rw [hkeys]
    exact h.nul
  · change out ++ r.out = _
    rw [h.out, hout, hkeys, hecho, List.map_append, List.append_assoc (List.map _ _)]

theorem OneLine.concat (h : OneLine pre) (hroom : (editedLine pre).length < 255)
    (hc : ¬ (c = 13 ∨ c = 10)) : OneLine (pre ++ [c]) where
  plain d hd := by
    rcases List.mem_append.mp hd with hd | hd
    · exact h.plain d hd
    · rwa [List.mem_singleton.mp hd]
  room k hk := by
    rw [List.length_append, List.length_singleton] at hk
    rw [List.take_append_of_le_length (by omega)]
    rcases Nat.lt_or_eq_of_le (Nat.le_of_lt_succ hk) with hk | rfl
    · exact h.room k hk
    · rwa [List.take_length]

/-- The loop is left with its buffer full. -/
theorem LineDone.full (h : Held m₀ input m (editedLine pre)) (hpre : OneLine pre)
    (hfull : ¬ (editedLine pre).length < 255) :
    LineDone m₀ input pre stream [] ⟨m, (editedLine pre).length, [], stream⟩ := by
  have hle : (editedLine pre).length ≤ 255 := typed_length_le _
  have hlength : (editedLine pre).length = 255 := by omega
  have hnil : pre ++ [] = pre := List.append_nil pre
  refine ⟨?_, ?_, ?_, ?_, ?_⟩
  · rw [hnil]
    exact ⟨hpre, .inr ⟨hlength, rfl⟩⟩
  · rw [hnil]
  · rw [hnil]
    exact h
  · rw [hnil]
    exact fun hlt => absurd hlt hfull
  · rw [hnil, if_neg hfull]
    rfl

/-- CR and LF end the line. -/
theorem LineDone.newline (h : Held m₀ input m (editedLine pre)) (hpre : OneLine pre)
    (hroom : (editedLine pre).length < 255) (hc : c = 13 ∨ c = 10) :
    LineDone m₀ input pre (c :: stream) []
      ⟨Function.update m (input + (editedLine pre).length) 0, (editedLine pre).length, [10],
        stream⟩ := by
  have hnil : pre ++ [] = pre := List.append_nil pre
  refine ⟨?_, ?_, ?_, ?_, ?_⟩
  · rw [hnil]
    exact ⟨hpre, .inl ⟨hroom, c, hc, rfl⟩⟩
  · rw [hnil]
  · rw [hnil]
    exact h.terminate hroom
  · exact fun _ => Function.update_self ..
  · rw [hnil, if_pos hroom]
    rfl

/-- A key that does not end the line, where the line has room. -/
theorem inputLoop_key (stream : Str) (h : Held m₀ input m (editedLine pre))
    (hroom : (editedLine pre).length < 255) (hc : ¬ (c = 13 ∨ c = 10)) : ∃ m', Held m₀ input m' (editedLine (pre ++ [c])) ∧
      inputLoop m input (editedLine pre).length (c :: stream) =
        (inputLoop m' input (editedLine (pre ++ [c])).length stream).map
          (.after ((echoes 255 32 (editedLine pre) ([c].filterMap key)).map (Output.sent 8))) := by
  rw [inputLoop, maxInput, if_pos hroom, if_neg hc, editedLine_concat]
  split_ifs with herase hprintable
  · have hkey : key c = some .erase := if_pos herase.1
    refine ⟨m, ?_, ?_⟩
    · rw [hkey]
      exact h.erase
    · rw [List.filterMap_cons_some hkey, hkey, List.filterMap_nil, echoes, echoes, echo,
        if_neg (Nat.ne_of_gt herase.2), ← List.length_dropLast]
      rfl
  · have hkey : key c = some (.put c) := by
      rw [key, if_neg (by grind), if_pos hprintable]
    have hput : edit 255 (editedLine pre) (.put c) = editedLine pre ++ [c] := if_pos hroom
    refine ⟨Function.update m (input + (editedLine pre).length) c, ?_, ?_⟩
    · rw [hkey, Option.map_some, hput]
      exact h.put hroom c
    · rw [List.filterMap_cons_some hkey, hkey, Option.map_some, Option.getD_some, hput,
        List.length_append, List.filterMap_nil, echoes, echoes, echo, if_pos hroom]
      rfl
  · -- erasing in an empty line, or a key that is not printable
    refine ⟨m, ?_⟩
    have hid : inputLoop m input (editedLine pre).length stream =
        (inputLoop m input (editedLine pre).length stream).map (.after []) := by
      rw [show LineRead.after [] = id from rfl, Option.map_id, id]
    by_cases hc : c = 127 ∨ c = 8
    · have hempty : editedLine pre = [] := List.length_eq_zero_iff.mp (by grind)
      have hkey : key c = some .erase := if_pos hc
      rw [hempty] at h hid ⊢
      rw [List.filterMap_cons_some hkey, hkey]
      exact ⟨h, hid⟩
    · have hkey : key c = none := by
        rw [key, if_neg hc, if_neg hprintable]
      rw [List.filterMap_cons_none hkey, hkey]
      exact ⟨h, hid⟩

/-- The input loop edits the line. -/
theorem inputLoop_done (stream : Str) : ∀ {m : Memory} (pre : Str) {r : LineRead},
    Held m₀ input m (editedLine pre) → OneLine pre →
    inputLoop m input (editedLine pre).length stream = some r →
    ∃ keys, LineDone m₀ input pre stream keys r := by
  induction stream with
  | nil =>
      intro m pre r h hpre hloop
      rw [inputLoop, maxInput] at hloop
      split_ifs at hloop with hroom
      cases hloop
      exact ⟨[], .full h hpre hroom⟩
  | cons c stream ih =>
      intro m pre r h hpre hloop
      by_cases hroom : (editedLine pre).length < 255
      · by_cases henter : c = 13 ∨ c = 10
        · rw [inputLoop, maxInput, if_pos hroom, if_pos henter] at hloop
          cases hloop
          exact ⟨[], .newline h hpre hroom henter⟩
        · obtain ⟨m', hm', hkey⟩ := inputLoop_key stream h hroom henter
          rw [hkey] at hloop
          obtain ⟨r', hr', rfl⟩ := Option.map_eq_some_iff.mp hloop
          obtain ⟨keys, hdone⟩ := ih _ hm' (hpre.concat hroom henter) hr'
          exact ⟨c :: keys, hdone.cons _ rfl⟩
      · rw [inputLoop, maxInput, if_neg hroom] at hloop
        cases hloop
        exact ⟨[], .full h hpre hroom⟩

/-- The loop is left once the keys of a line are there. -/
theorem inputLoop_leaves {rest : Str} (keys : Str) : ∀ {m : Memory} (pre stream : Str),
    Held m₀ input m (editedLine pre) → (∀ c ∈ keys, ¬ (c = 13 ∨ c = 10)) →
    (∀ k < keys.length, (editedLine (pre ++ keys.take k)).length < 255) →
    ((editedLine (pre ++ keys)).length < 255 ∧
        (∃ c, (c = 13 ∨ c = 10) ∧ stream = keys ++ c :: rest) ∨
      (editedLine (pre ++ keys)).length = 255 ∧ stream = keys ++ rest) →
    ∃ r, inputLoop m input (editedLine pre).length stream = some r ∧ r.rest = rest := by
  induction keys with
  | nil =>
      intro m pre stream h _ _ hends
      rw [List.append_nil] at hends
      rcases hends with ⟨hroom, c, hc, rfl⟩ | ⟨hfull, rfl⟩
      · refine ⟨⟨Function.update m (input + (editedLine pre).length) 0, (editedLine pre).length, [10],
          rest⟩, ?_, rfl⟩
        rw [List.nil_append, inputLoop, maxInput, if_pos hroom, if_pos hc]
      · refine ⟨⟨m, (editedLine pre).length, [], stream⟩, ?_, rfl⟩
        cases stream with
        | nil => rw [inputLoop, maxInput, if_neg (by omega)]
        | cons c stream => rw [inputLoop, maxInput, if_neg (by omega)]
  | cons c keys ih =>
      intro m pre stream h hplain hroom hends
      obtain ⟨tail, rfl⟩ : ∃ tail, stream = c :: tail := by
        rcases hends with ⟨-, d, -, rfl⟩ | ⟨-, rfl⟩
        · exact ⟨_, rfl⟩
        · exact ⟨_, rfl⟩
      have hfirst : (editedLine pre).length < 255 := by
        have hzero := hroom 0 (Nat.succ_pos _)
        rwa [List.take_zero, List.append_nil] at hzero
      obtain ⟨m', hm', hkey⟩ := inputLoop_key tail h hfirst (hplain c List.mem_cons_self)
      have happend : ∀ t : Str, pre ++ c :: t = pre ++ [c] ++ t := fun t => by simp
      obtain ⟨r, hr, hrest⟩ := ih (pre ++ [c]) tail hm'
        (fun d hd => hplain d (List.mem_cons_of_mem _ hd))
        (fun k hk => by
          rw [← happend]
          exact hroom (k + 1) (Nat.succ_lt_succ hk))
        (by
          rw [← happend]
          rcases hends with ⟨hlt, d, hd, htail⟩ | ⟨hfull, htail⟩
          · exact .inl ⟨hlt, d, hd, List.tail_eq_of_cons_eq htail⟩
          · exact .inr ⟨hfull, List.tail_eq_of_cons_eq htail⟩)
      rw [hkey, hr]
      exact ⟨_, rfl, hrest⟩

theorem OneLine.start : OneLine [] where
  plain _ hc := absurd hc List.not_mem_nil
  room k hk := absurd hk (Nat.not_lt_zero k)

/-- Nothing is typed, and the memory is as it was. -/
theorem Held.start (m : Memory) (input : Nat) : Held m input m (editedLine []) where
  chars k c hc := by cases hc
  outside _ _ := rfl

theorem LineKeys.leaves {keys rest : Str} (h : LineKeys stream keys rest) (m : Memory)
    (input : Nat) : ∃ r, inputLoop m input 0 stream = some r ∧ r.rest = rest :=
  inputLoop_leaves keys [] _ (.start m input) h.plain h.room h.ends

end Editing

section Splitting

variable {m : Memory} {input : Nat} {text word args : Str}

theorem splitArgs_none (h : CStringAt m input text) (hline : 32 ∉ text) :
    splitArgs m input text.length = (m, none) := by
  have hfind : ((List.range text.length).find? fun i => m (input + i) = 32) = none := by
    rw [List.find?_range_eq_none]
    intro i hi
    have hchar := h.chars i text[i] (List.getElem?_eq_getElem hi)
    have hne : text[i] ≠ 32 := fun heq => hline (heq ▸ List.getElem_mem hi)
    simpa [hchar] using hne
  rw [splitArgs, hfind]

theorem splitArgs_some (h : CStringAt m input (word ++ 32 :: args)) (hword : 32 ∉ word) :
    splitArgs m input (word ++ 32 :: args).length =
      (Function.update m (input + word.length) 0, some (input + (word.length + 1))) := by
  have hfind : ((List.range (word ++ 32 :: args).length).find? fun i => m (input + i) = 32) =
      some word.length := by
    rw [List.find?_range_eq_some]
    refine ⟨?_, ?_, ?_⟩
    · have hspace := h.chars word.length 32 (by simp)
      simpa using hspace
    · simp
    · intro i hi
      have hchar := h.chars i word[i] (by rw [List.getElem?_append_left hi, List.getElem?_eq_getElem hi])
      have hne : word[i] ≠ 32 := fun heq => hword (heq ▸ List.getElem_mem hi)
      simpa [hchar] using hne
  rw [splitArgs, hfind]

/-- The comparisons find the command that the word names. -/
theorem dispatch_eq_named (h : CStringAt m input word) : dispatch m input = named word := by
  have hnames : ∀ c ∈ commands, 0 ∉ c.1 := by decide
  have hfind : (commands.find? fun c => strEq m input c.1) = commands.find? fun c => c.1 = word := by
    refine List.find?_congr fun c hc => ?_
    rw [Bool.eq_iff_iff, decide_eq_true_iff]
    exact strEq_store m word c.1 h.nul_free (hnames c hc)
      (fun k hk => h.chars k _ (List.getElem?_eq_getElem hk)) h.nul
  rw [dispatch, hfind]
  rfl

theorem commandWord_split (text : Str) :
    commandWord text = text ∧ commandArgs text = none ∧ 32 ∉ text ∨
      ∃ args, text = commandWord text ++ 32 :: args ∧ commandArgs text = some args ∧
        32 ∉ commandWord text := by
  have hword : 32 ∉ commandWord text := fun h => by simpa using List.mem_takeWhile_imp h
  have hsplit := List.takeWhile_append_dropWhile (p := (· ≠ (32 : UInt8))) (l := text)
  rw [commandArgs]
  cases hrest : text.dropWhile (· ≠ 32) with
  | nil =>
      have hline : commandWord text = text := by
        rw [hrest, List.append_nil] at hsplit
        exact hsplit
      exact .inl ⟨hline, rfl, hline ▸ hword⟩
  | cons c args =>
      have hc : c = 32 := by
        have hhead := List.head_dropWhile_not (fun d : UInt8 => decide (d ≠ 32)) (l := text)
          (by rw [hrest]; exact List.cons_ne_nil _ _)
        simp only [hrest, List.head_cons] at hhead
        simpa using hhead
      rw [hrest, hc] at hsplit
      exact .inr ⟨args, hsplit.symm, rfl, hword⟩

/-- A terminated line is split at its first space, and its word chooses the command. -/
theorem dispatches_of_text {r : LineRead} (h : CStringAt r.mem input text)
    (hpos : r.pos = text.length) : Dispatches input r text := by
  rcases commandWord_split text with ⟨hword, hargs, hspace⟩ | ⟨args, hline, hargs, hspace⟩
  · have hsplit : splitArgs r.mem input r.pos = (r.mem, none) := by
      rw [hpos, splitArgs_none h hspace]
    refine ⟨h, ?_, ?_, ?_⟩
    · rw [hsplit, hword, dispatch_eq_named h]
    · rw [hsplit, hword]
      exact h
    · rw [hsplit, hargs]
      exact .none
  · rw [hline] at h
    have hsplit : splitArgs r.mem input r.pos =
        (Function.update r.mem (input + (commandWord text).length) 0,
          some (input + ((commandWord text).length + 1))) := by
      rw [hpos, hline, splitArgs_some h hspace, ← hline]
    have hcmd := h.cut
    refine ⟨hline ▸ h, ?_, ?_, ?_⟩
    · rw [hsplit, dispatch_eq_named hcmd]
    · rw [hsplit]
      exact hcmd
    · rw [hsplit, hargs]
      refine .some ?_
      have htail := h.drop (n := (commandWord text).length + 1) (by simp)
      rw [List.drop_length_add_append, List.drop_one, List.tail_cons] at htail
      exact htail.congr fun k _ => Function.update_of_ne (by omega) ..

end Splitting

/-- The kernel shell dispatches the line that was typed exactly when a newline ended it, or when the
last byte of its buffer was a NUL all along: a full buffer is left without a terminator. -/
theorem line_dispatched_iff {m : Memory} {input : Nat} {stream : Str} {r : LineRead}
    (h : inputLoop m input 0 stream = some r) :
    ∃ keys, LineKeys stream keys r.rest ∧ r.pos = (editedLine keys).length ∧
      (Dispatches input r (editedLine keys) ↔
        (editedLine keys).length < 255 ∨ m (input + 255) = 0) := by
  obtain ⟨keys, hdone⟩ := inputLoop_done stream [] (.start m input) .start h
  have hpos : r.pos = (editedLine keys).length := hdone.pos
  have hlast : r.mem (input + 255) = m (input + 255) := hdone.held.outside _ (.inr le_rfl)
  have hle : (editedLine keys).length ≤ 255 := typed_length_le _
  refine ⟨keys, hdone.consumed, hpos, fun hdispatch => ?_, fun hend => ?_⟩
  · rcases Nat.lt_or_eq_of_le hle with hlt | hfull
    · exact .inl hlt
    · right
      calc m (input + 255) = r.mem (input + 255) := hlast.symm
        _ = r.mem (input + (editedLine keys).length) := by rw [hfull]
        _ = 0 := hdispatch.text.nul
  · have hnul : r.mem (input + (editedLine keys).length) = 0 := by
      rcases Nat.lt_or_eq_of_le hle with hlt | hfull
      · rw [← hpos]
        exact hdone.nul hlt
      · calc r.mem (input + (editedLine keys).length)
            = r.mem (input + 255) := by rw [hfull]
          _ = m (input + 255) := hlast
          _ = 0 := hend.resolve_left (by omega)
    have htext : CStringAt r.mem input (editedLine keys) :=
      ⟨editedLine_nul_free keys, hdone.held.chars, hnul⟩
    exact dispatches_of_text htext hpos

/-- `ls /tmp` and a return, over a buffer of other bytes. -/
theorem line_dispatched_ls : ∃ r keys, LineKeys (ascii "ls /tmp" ++ [13]) keys r.rest ∧
    r.pos = (editedLine keys).length ∧
      (Dispatches 64 r (editedLine keys) ↔ (editedLine keys).length < 255 ∨ (120 : UInt8) = 0) := by
  have hread : ∃ r, inputLoop (fun _ => 120) 64 0 (ascii "ls /tmp" ++ [13]) = some r := ⟨_, rfl⟩
  obtain ⟨r, hr⟩ := hread
  exact ⟨r, line_dispatched_iff hr⟩

theorem editedLine_replicate (n : Nat) (hn : n ≤ 255) :
    editedLine (List.replicate n 97) = List.replicate n 97 := by
  induction n with
  | zero => rfl
  | succ n ih =>
      have hroom : (List.replicate n (97 : UInt8)).length < 255 := by
        rw [List.length_replicate]
        omega
      rw [List.replicate_succ', editedLine_concat, ih (by omega)]
      exact if_pos hroom

/-- The keys that fill the buffer leave it unterminated, over a stack of other bytes. -/
theorem full_line_unterminated :
    ∃ r, inputLoop (fun _ => 120) 0 0 (List.replicate 255 97) = some r ∧
      ¬ ∃ keys, LineKeys (List.replicate 255 97) keys r.rest ∧
        CStringAt r.mem 0 (editedLine keys) := by
  have hkeys : LineKeys (List.replicate 255 97) (List.replicate 255 97) [] := by
    refine ⟨⟨fun c hc => ?_, fun k hk => ?_⟩, .inr ⟨?_, (List.append_nil _).symm⟩⟩
    · rw [List.eq_of_mem_replicate hc]
      decide
    · rw [List.length_replicate] at hk
      rw [List.take_replicate, Nat.min_eq_left hk.le, editedLine_replicate k hk.le,
        List.length_replicate]
      exact hk
    · rw [editedLine_replicate 255 le_rfl, List.length_replicate]
  obtain ⟨r, hr, hrest⟩ := hkeys.leaves (fun _ => 120) 0
  obtain ⟨_, hdone⟩ := inputLoop_done _ [] (.start (fun _ => 120) 0) .start hr
  have hlast : r.mem (0 + 255) = 120 := hdone.held.outside 255 (.inr le_rfl)
  refine ⟨r, hr, ?_⟩
  intro ⟨keys, hline, htext⟩
  rcases hline.ends with ⟨-, c, hc, hstream⟩ | ⟨hfull, -⟩
  · have hmem : c ∈ List.replicate 255 97 := hstream ▸ by simp
    rw [List.eq_of_mem_replicate hmem] at hc
    exact absurd hc (by decide)
  · have hnul := htext.nul
    rw [hfull, hlast] at hnul
    exact absurd hnul (by decide)

/-- The terminal, behind its prompt, shows the line that is dispatched; a newline is sent behind it. -/
theorem line_shown {m : Memory} {input : Nat} {stream : Str} {r : LineRead}
    (h : inputLoop m input 0 stream = some r) :
    ∃ keys sent, LineKeys stream keys r.rest ∧
      r.out = sent ++ (if (editedLine keys).length < 255 then [10] else []) ∧
      ∀ prompt screen, Shows 32 prompt [] screen →
        Shows 32 prompt (editedLine keys) ((sent.map (received 8)).foldl Screen.put screen) := by
  obtain ⟨keys, hdone⟩ := inputLoop_done stream [] (.start m input) .start h
  refine ⟨keys, _, hdone.consumed, hdone.out, fun prompt screen hscreen => ?_⟩
  rw [map_received_sent (by decide) (put_backspace keys)]
  exact hscreen.echoes (keys.filterMap key)

end Chthon.Shell
