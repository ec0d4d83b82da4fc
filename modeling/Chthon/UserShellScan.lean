import Chthon.UserShell

/-! How the user shell reads its line: the comparisons with the command words, and the loops that look
for the arguments. -/

namespace Chthon.UserShell

open BasicBlocks PathText

/-- The line is behind `x2` with its length in `x3`, complete from position `start` on. -/
structure LineFrom (s : State) (text : Str) (start : Nat) : Prop where
  length : s.x 3 = BitVec.ofNat 64 text.length
  short : text.length ≤ 63
  chars : ∀ k (hk : k < text.length), start ≤ k →
    s.mem (s.x 2 + BitVec.ofNat 64 k) = text[k].toBitVec

theorem LineFrom.keeps {s s' : State} {text : Str} {start : Nat} {rs : List (Fin 31)}
    (h : LineFrom s text start) (hkeeps : Keeps rs s s') (h2 : 2 ∉ rs) (h3 : 3 ∉ rs) :
    LineFrom s' text start where
  length := by rw [hkeeps.x 3 h3, h.length]
  short := h.short
  chars k hk hstart := by rw [hkeeps.x 2 h2, hkeeps.mem, h.chars k hk hstart]

/-- What a comparison with a character sees of a loaded byte. -/
theorem byte_eq_iff (b c : UInt8) :
    b.toBitVec.setWidth 32 = BitVec.ofNat 32 c.toNat ↔ b = c := by
  rw [← BitVec.toNat_inj, BitVec.toNat_setWidth, BitVec.toNat_ofNat, ← UInt8.toNat_inj]
  have hb := b.toNat_lt
  have hc := c.toNat_lt
  change b.toNat % 2 ^ 32 = c.toNat % 2 ^ 32 ↔ b.toNat = c.toNat
  omega

section Compare

variable {symbol : Symbol → Arm64.Word} {env : Environment} {s : State} {text : Str} {calls : Calls}
  {here other : Label}

theorem slt_ofNat {a b : Nat} (ha : a < 2 ^ 63) (hb : b < 2 ^ 63) :
    (BitVec.ofNat 64 a).slt (BitVec.ofNat 64 b) = decide (a < b) := by
  have hnat : ∀ n < 2 ^ 63, (BitVec.ofNat 64 n).toInt = n := by
    intro n hn
    have hlt : (BitVec.ofNat 64 n).toNat = n := by
      rw [BitVec.toNat_ofNat]
      omega
    rw [BitVec.toInt_eq_toNat_of_lt (by omega), hlt]
  rw [BitVec.slt, hnat a ha, hnat b hb]
  simp only [Nat.cast_lt]

theorem ofNat_eq_iff {a b : Nat} (ha : a < 2 ^ 63) (hb : b < 2 ^ 63) :
    BitVec.ofNat 64 a = BitVec.ofNat 64 b ↔ a = b := by
  rw [← BitVec.toNat_inj, BitVec.toNat_ofNat, BitVec.toNat_ofNat, Nat.mod_eq_of_lt (by omega),
    Nat.mod_eq_of_lt (by omega)]

/-- The flags after the comparison of the length with a number. -/
theorem LineFrom.compare {start : Nat} (h : LineFrom s text start) {n : Nat} (hn : n ≤ 63) :
    exec (shell symbol) (.cmp (.x 3) n) s =
      { s with zero := decide (text.length = n), less := decide (text.length < n) } := by
  have hshort := h.short
  have hslt := slt_ofNat (a := text.length) (b := n) (by omega) (by omega)
  have heq := ofNat_eq_iff (a := text.length) (b := n) (by omega) (by omega)
  simp [exec, State.get, State.compare, h.length, hslt, heq]

theorem Keeps.flags (s : State) (zero less : Bool) :
    Keeps [] s { s with zero := zero, less := less } := ⟨fun _ _ => rfl, rfl, rfl⟩

variable (symbol env calls here other)

/-- The comparison goes through exactly when the text has the word at this position. -/
theorem compareFrom_run (word : Str) {k : Nat} (h : LineFrom s text 0)
    (hk : k + word.length ≤ text.length) (rest : Block) :
    ∃ s', Keeps [4] s s' ∧
      (word <+: text.drop k ∧ runBlock (shell symbol) env here (compareFrom other k word ++ rest) s
          calls = runBlock (shell symbol) env here rest s' calls ∨
        ¬ word <+: text.drop k ∧ runBlock (shell symbol) env here
          (compareFrom other k word ++ rest) s calls = ⟨other, s', calls⟩) := by
  induction word generalizing k s with
  | nil => exact ⟨s, Keeps.refl s, .inl ⟨List.nil_prefix, rfl⟩⟩
  | cons c cs ih =>
      rw [List.length_cons] at hk
      have hlt : k < text.length := by omega
      let s₁ : State := { s with
        x := Function.update s.x 4 (text[k].toBitVec.setWidth 64)
        zero := decide (text[k] = c)
        less := (text[k].toBitVec.setWidth 32).slt (BitVec.ofNat 32 c.toNat) }
      have hkeeps : Keeps [4] s s₁ := by
        refine ⟨?_, rfl, rfl⟩
        intro r hr
        exact Function.update_of_ne (fun heq => hr (List.mem_singleton.mpr heq)) _ _
      have hstep : runBlock (shell symbol) env here (compareFrom other k (c :: cs) ++ rest) s calls =
          if text[k] = c then runBlock (shell symbol) env here (compareFrom other (k + 1) cs ++ rest)
            s₁ calls else ⟨other, s₁, calls⟩ := by
        simp [compareFrom, runBlock, exec, State.set, State.get, State.compare, State.holds,
          h.chars k hlt (Nat.zero_le k), byte_eq_iff, s₁]
      rw [hstep, List.drop_eq_getElem_cons hlt, List.cons_prefix_cons]
      by_cases hc : text[k] = c
      · obtain ⟨s', hkeeps', hrun⟩ := ih (k := k + 1)
          (h.keeps hkeeps (by decide) (by decide)) (by omega)
        refine ⟨s', hkeeps.trans hkeeps', ?_⟩
        rw [if_pos hc, and_iff_right hc.symm]
        exact hrun
      · refine ⟨s₁, hkeeps, .inr ⟨?_, if_neg hc⟩⟩
        exact fun heq => hc heq.1.symm

theorem checkPrefix_run (word : Str) (hword : word.length ≤ 63) (h : LineFrom s text 0)
    (rest : Block) : ∃ s', Keeps [4] s s' ∧
      (word <+: text ∧ runBlock (shell symbol) env here (checkPrefix word other ++ rest) s calls =
          runBlock (shell symbol) env here rest s' calls ∨
        ¬ word <+: text ∧ runBlock (shell symbol) env here (checkPrefix word other ++ rest) s calls =
          ⟨other, s', calls⟩) := by
  have hstep : runBlock (shell symbol) env here (checkPrefix word other ++ rest) s calls =
      if text.length < word.length then ⟨other, exec (shell symbol) (.cmp (.x 3) word.length) s, calls⟩
      else runBlock (shell symbol) env here (compareFrom other 0 word ++ rest)
        (exec (shell symbol) (.cmp (.x 3) word.length) s) calls := by
    simp [checkPrefix, runBlock, h.compare hword, State.holds]
  rw [hstep, h.compare hword]
  have hkeeps := Keeps.flags s (decide (text.length = word.length))
    (decide (text.length < word.length))
  by_cases hlt : text.length < word.length
  · refine ⟨_, hkeeps.mono (List.nil_subset _), .inr ⟨?_, if_pos hlt⟩⟩
    intro hprefix
    have hle := hprefix.length_le
    omega
  · rw [if_neg hlt]
    obtain ⟨s', hkeeps', hrun⟩ := compareFrom_run symbol env calls here other word (k := 0)
      (h.keeps hkeeps List.not_mem_nil List.not_mem_nil) (by omega) rest
    exact ⟨s', (hkeeps.mono (List.nil_subset _)).trans hkeeps', hrun⟩

theorem checkWhole_run (word : Str) (hword : word.length ≤ 63) (h : LineFrom s text 0)
    (rest : Block) : ∃ s', Keeps [4] s s' ∧
      (text = word ∧ runBlock (shell symbol) env here (checkWhole word other ++ rest) s calls =
          runBlock (shell symbol) env here rest s' calls ∨
        text ≠ word ∧ runBlock (shell symbol) env here (checkWhole word other ++ rest) s calls =
          ⟨other, s', calls⟩) := by
  have hstep : runBlock (shell symbol) env here (checkWhole word other ++ rest) s calls =
      if text.length = word.length then
        runBlock (shell symbol) env here (compareFrom other 0 word ++ rest)
          (exec (shell symbol) (.cmp (.x 3) word.length) s) calls
      else ⟨other, exec (shell symbol) (.cmp (.x 3) word.length) s, calls⟩ := by
    simp [checkWhole, runBlock, h.compare hword, State.holds]
  rw [hstep, h.compare hword]
  have hkeeps := Keeps.flags s (decide (text.length = word.length))
    (decide (text.length < word.length))
  by_cases hlen : text.length = word.length
  · rw [if_pos hlen]
    obtain ⟨s', hkeeps', hrun⟩ := compareFrom_run symbol env calls here other word (k := 0)
      (h.keeps hkeeps List.not_mem_nil List.not_mem_nil) (by omega) rest
    refine ⟨s', (hkeeps.mono (List.nil_subset _)).trans hkeeps', hrun.imp ?_ ?_⟩
    · exact fun hsame => ⟨(hsame.1.eq_of_length hlen.symm).symm, hsame.2⟩
    · refine fun hother => ⟨?_, hother.2⟩
      rintro rfl
      exact hother.1 List.prefix_rfl
  · refine ⟨_, hkeeps.mono (List.nil_subset _), .inr ⟨?_, if_neg hlen⟩⟩
    rintro rfl
    exact hlen rfl

/-- The command word of a line. -/
def commandWord (text : Str) : Str := text.takeWhile (· ≠ space)

theorem commandWord_append {word args : Str} (hword : space ∉ word) :
    commandWord (word ++ space :: args) = word := by
  rw [commandWord, List.takeWhile_append_of_pos]
  · simp
  · intro c hc
    rw [decide_eq_true_eq]
    rintro rfl
    exact hword hc

theorem commandWord_self {word : Str} (hword : space ∉ word) : commandWord word = word := by
  rw [commandWord, List.takeWhile_eq_self_iff]
  intro c hc
  rw [decide_eq_true_eq]
  rintro rfl
  exact hword hc

/-- A line whose command word starts with the word has it as its command word only if it ends there
or a space follows. -/
theorem commandWord_longer {word : Str} {c : UInt8} {args : Str} (hword : space ∉ word)
    (hc : c ≠ space) : commandWord (word ++ c :: args) = word ++ c :: commandWord args := by
  rw [commandWord, List.takeWhile_append_of_pos]
  · rw [List.takeWhile_cons_of_pos (by simpa using hc)]
    rfl
  · intro d hd
    rw [decide_eq_true_eq]
    rintro rfl
    exact hword hd

/-- The three ways a check of a command goes. -/
theorem checkCommand_run (word : Str) (hword : word.length ≤ 62) (hspace : space ∉ word)
    (h : LineFrom s text 0) (bare : Label) (rest : Block) : ∃ s', Keeps [4] s s' ∧
      (text = word ∧ runBlock (shell symbol) env here (checkCommand word bare other ++ rest) s
          calls = ⟨bare, s', calls⟩ ∨
        (∃ args, text = word ++ space :: args) ∧ runBlock (shell symbol) env here
          (checkCommand word bare other ++ rest) s calls =
            runBlock (shell symbol) env here rest s' calls ∨
        commandWord text ≠ word ∧ runBlock (shell symbol) env here
          (checkCommand word bare other ++ rest) s calls = ⟨other, s', calls⟩) := by
  rw [checkCommand, List.append_assoc]
  obtain ⟨s₁, hkeeps, hrun⟩ := checkPrefix_run symbol env calls here other word (by omega) h ([.cmp (.x 3) word.length,
      .branchIf .eq bare, .ldrb (.x 4) (.x 2) word.length, .cmpw (.x 4) 32,
      .branchIf .ne other] ++ rest)
  have h₁ := h.keeps hkeeps (by decide) (by decide)
  rcases hrun with ⟨⟨args, rfl⟩, hrun⟩ | ⟨hno, hrun⟩
  · rw [hrun]
    cases args with
    | nil =>
        refine ⟨exec (shell symbol) (.cmp (.x 3) word.length) s₁, ?_, .inl ⟨List.append_nil _, ?_⟩⟩
        · rw [h₁.compare (by omega)]
          exact hkeeps.trans ((Keeps.flags _ _ _).mono (List.nil_subset _))
        · simp [runBlock, h₁.compare (show word.length ≤ 63 by omega), State.holds]
    | cons c args =>
        have hbyte := h₁.chars word.length (by simp) (Nat.zero_le _)
        rw [List.getElem_append_right (le_refl _)] at hbyte
        simp only [Nat.sub_self, List.getElem_cons_zero] at hbyte
        have hspace32 : BitVec.ofNat 32 space.toNat = 32#32 := rfl
        let s₂ : State := { s₁ with
          x := Function.update s₁.x 4 (c.toBitVec.setWidth 64)
          zero := decide (c = space)
          less := (c.toBitVec.setWidth 32).slt (BitVec.ofNat 32 space.toNat) }
        have hstep : runBlock (shell symbol) env here ([.cmp (.x 3) word.length,
            .branchIf .eq bare, .ldrb (.x 4) (.x 2) word.length, .cmpw (.x 4) 32,
            .branchIf .ne other] ++ rest) s₁ calls =
            if c = space then runBlock (shell symbol) env here rest s₂ calls
            else ⟨other, s₂, calls⟩ := by
          have hzero := byte_eq_iff c space
          rw [hspace32] at hzero
          have hlonger : s₁.x 3 ≠ BitVec.ofNat 64 word.length := by
            have hshort := h₁.short
            rw [h₁.length, ne_eq, ofNat_eq_iff (by omega) (by omega)]
            simp
          simp [runBlock, State.holds, exec, State.get, State.set, State.compare, hlonger, hbyte,
            hzero, s₂, hspace32]
        have hkeeps₂ : Keeps [4] s s₂ := by
          refine hkeeps.trans ⟨?_, rfl, rfl⟩
          intro r hr
          exact Function.update_of_ne (fun heq => hr (List.mem_singleton.mpr heq)) _ _
        refine ⟨s₂, hkeeps₂, .inr ?_⟩
        by_cases hc : c = space
        · subst hc
          exact .inl ⟨⟨args, rfl⟩, hstep.trans (if_pos rfl)⟩
        · refine .inr ⟨?_, hstep.trans (if_neg hc)⟩
          rw [commandWord_longer hspace hc]
          simp
  · refine ⟨s₁, hkeeps, .inr (.inr ⟨?_, hrun⟩)⟩
    rintro rfl
    exact hno (List.takeWhile_prefix _)

end Compare

/-! The loops over the arguments. -/

section Loops

variable {symbol : Symbol → Arm64.Word} {env : Environment} {s : State} {text : Str} {calls : Calls}
  {here : Label}

theorem step_at (s : State) (calls : Calls) (label : Label) :
    step (shell symbol) env ⟨label, s, calls⟩ =
      runBlock (shell symbol) env label (code label) s calls := rfl

/-- A register that points to a position in the line. -/
def At (s : State) (index : Fin 31) (pre : Str) : Prop := s.x index = BitVec.ofNat 64 pre.length

/-- One round of a loop that looks at the byte behind a part of the line. -/
theorem LineFrom.look {pre : Str} (h : LineFrom s text pre.length) {c : UInt8} {args : Str}
    (htext : text = pre ++ c :: args) : s.mem (s.x 2 + BitVec.ofNat 64 pre.length) = c.toBitVec := by
  have hbyte := h.chars pre.length (by simp [htext]) le_rfl
  simpa [htext] using hbyte

theorem LineFrom.ends_iff {start : Nat} (h : LineFrom s text start) {index : Fin 31} {pre args : Str}
    (htext : text = pre ++ args) (hat : At s index pre) :
    BitVec.slt (s.x index) (s.x 3) = decide (args ≠ []) := by
  have hshort := h.short
  rw [htext, List.length_append] at hshort
  rw [hat, h.length, slt_ofNat (by omega) (by rw [htext, List.length_append]; omega), htext,
    List.length_append, decide_eq_decide, ← List.length_pos_iff]
  omega

theorem LineFrom.mono {start start' : Nat} (h : LineFrom s text start) (hle : start ≤ start') :
    LineFrom s text start' :=
  ⟨h.length, h.short, fun k hk hstart => h.chars k hk (hle.trans hstart)⟩

/-- The state with the register one further. -/
def advance (s : State) (index : Fin 31) : State :=
  { s with x := Function.update s.x index (s.x index + 1) }

theorem keeps_advance (s : State) (index : Fin 31) : Keeps [index] s (advance s index) := by
  refine ⟨?_, rfl, rfl⟩
  intro r hr
  exact Function.update_of_ne (fun heq => hr (List.mem_singleton.mpr heq)) _ _

theorem At.advance {index : Fin 31} {pre : Str} (h : At s index pre) (c : UInt8) :
    At (advance s index) index (pre ++ [c]) := by
  have hself : (UserShell.advance s index).x index = s.x index + 1 := Function.update_self ..
  rw [At, hself, h, List.length_append, List.length_singleton]
  exact (BitVec.ofNat_add _ _).symm

variable (symbol env calls here)

/-- What both loops start with: they stop at the end of the line, and look at the next byte before
it. -/
theorem look_run {index : Fin 31} (byte : Fin 31) (stop : Label) (rest : Block) {pre args : Str}
    (htext : text = pre ++ args) (h : LineFrom s text pre.length) (hat : At s index pre) :
    ∃ s', Keeps [byte] s s' ∧
      (args = [] ∧ runBlock (shell symbol) env here ([.cmpReg (.x index) (.x 3), .branchIf .ge stop,
          .ldrbReg (.x byte) (.x 2) (.x index), .cmpw (.x byte) 32] ++ rest) s calls =
          ⟨stop, s', calls⟩ ∨
        ∃ c args', args = c :: args' ∧ s'.zero = decide (c = space) ∧
          runBlock (shell symbol) env here ([.cmpReg (.x index) (.x 3), .branchIf .ge stop,
            .ldrbReg (.x byte) (.x 2) (.x index), .cmpw (.x byte) 32] ++ rest) s calls =
            runBlock (shell symbol) env here rest s' calls) := by
  have hend := h.ends_iff htext hat
  cases args with
  | nil =>
      refine ⟨s.compare (s.x index) (s.x 3), (Keeps.flags s _ _).mono (List.nil_subset _),
        .inl ⟨rfl, ?_⟩⟩
      have hless : (s.compare (s.x index) (s.x 3)).less = false := hend.trans (by simp)
      simp [runBlock, exec, State.get, State.holds, hless]
  | cons c args =>
      let s' : State := { s with
        x := Function.update s.x byte (c.toBitVec.setWidth 64)
        zero := decide (c = space)
        less := (c.toBitVec.setWidth 32).slt (BitVec.ofNat 32 space.toNat) }
      refine ⟨s', ⟨?_, rfl, rfl⟩, .inr ⟨c, args, rfl, rfl, ?_⟩⟩
      · intro r hr
        exact Function.update_of_ne (fun heq => hr (List.mem_singleton.mpr heq)) _ _
      · have hbyte := h.look htext
        rw [← hat] at hbyte
        have hspace32 : BitVec.ofNat 32 space.toNat = 32#32 := rfl
        have hzero := byte_eq_iff c space
        rw [hspace32] at hzero
        simp [runBlock, exec, State.get, State.set, State.compare, State.holds, hend, hbyte, hzero,
          hspace32, s']

/-- The loop over spaces stops at the first argument, if there is one. -/
theorem skipSpaces_reaches {byte : Fin 31} {none found : Label}
    (hcode : code here = skipSpaces byte here none found) (hprompt : here ≠ .printPrompt)
    (h2 : 2 ≠ byte) (h3 : 3 ≠ byte) (h4 : 4 ≠ byte) (rest : Str) :
    ∀ {s : State} {pre : Str}, text = pre ++ rest → LineFrom s text pre.length → At s 4 pre →
      ∃ s', Keeps [4, byte] s s' ∧
        (components space rest = [] ∧
          Reaches (shell symbol) env .printPrompt ⟨here, s, calls⟩ ⟨none, s', calls⟩ ∨
        ∃ pre' c args, text = pre' ++ c :: args ∧ c ≠ space ∧ pre.length ≤ pre'.length ∧
          components space rest = components space (c :: args) ∧ At s' 4 pre' ∧
          Reaches (shell symbol) env .printPrompt ⟨here, s, calls⟩ ⟨found, s', calls⟩) := by
  induction rest with
  | nil =>
      intro s pre htext h hat
      obtain ⟨s', hkeeps, ⟨-, hrun⟩ | ⟨c, args, hargs, -⟩⟩ := look_run symbol env calls here
        byte none
        [.branchIf .ne found, .add (.x 4) (.x 4) 1, .branch here] htext h hat
      · refine ⟨s', hkeeps.mono (by simp), .inl ⟨components_nil space, Reaches.single hprompt ?_⟩⟩
        rw [step_at, hcode]
        exact hrun
      · cases hargs
  | cons c args ih =>
      intro s pre htext h hat
      obtain ⟨s', hkeeps, ⟨hargs, -⟩ | ⟨d, args', hargs, hzero, hrun⟩⟩ := look_run symbol env
        calls here byte none
        [.branchIf .ne found, .add (.x 4) (.x 4) 1, .branch here] htext h hat
      · cases hargs
      cases hargs
      have hat' : At s' 4 pre := (hkeeps.x 4 (by simpa using h4)).trans hat
      have h' := h.keeps hkeeps (by simpa using h2) (by simpa using h3)
      by_cases hc : c = space
      · subst hc
        have hround : step (shell symbol) env ⟨here, s, calls⟩ =
            ⟨here, advance s' 4, calls⟩ := by
          rw [step_at, hcode]
          refine hrun.trans ?_
          simp [runBlock, exec, State.get, State.set, State.holds, hzero, advance]
        have hadvance := keeps_advance s' 4
        have hround' : Keeps [4, byte] s (advance s' 4) :=
          (hkeeps.mono (by simp)).trans (hadvance.mono (by simp))
        have hlater : LineFrom (advance s' 4) text (pre ++ [space]).length :=
          (h'.keeps hadvance (by decide) (by decide)).mono (by simp)
        obtain ⟨s₂, hkeeps₂, hrest⟩ := ih (s := advance s' 4)
          (show text = (pre ++ [space]) ++ args by simpa using htext) hlater (hat'.advance space)
        have hfirst := Reaches.single hprompt hround
        refine ⟨s₂, hround'.trans hkeeps₂, ?_⟩
        rw [components_sep_cons]
        rcases hrest with ⟨hnone, hreach⟩ | ⟨pre', c, args', htext', hc, hle, hsame, hat₂, hreach⟩
        · exact .inl ⟨hnone, hfirst.trans hreach⟩
        · rw [List.length_append] at hle
          exact .inr ⟨pre', c, args', htext', hc, by omega, hsame, hat₂, hfirst.trans hreach⟩
      · refine ⟨s', hkeeps.mono (by simp), .inr ⟨pre, c, args, htext, hc, le_rfl, rfl, hat',
          Reaches.single hprompt ?_⟩⟩
        rw [step_at, hcode]
        refine hrun.trans ?_
        simp [runBlock, State.holds, hzero, hc]

/-- The loop over an argument stops behind it. -/
theorem findSpace_reaches {index byte : Fin 31} {found atEnd : Label}
    (hcode : code here = findSpace index byte here found atEnd) (hprompt : here ≠ .printPrompt)
    (h2 : 2 ≠ byte ∧ 2 ≠ index) (h3 : 3 ≠ byte ∧ 3 ≠ index) (hne : index ≠ byte) (rest : Str) :
    ∀ {s : State} {pre : Str}, text = pre ++ rest → LineFrom s text pre.length → At s index pre →
      ∃ s' arg rest', Keeps [index, byte] s s' ∧ rest = arg ++ rest' ∧ space ∉ arg ∧
        At s' index (pre ++ arg) ∧
        (rest' = [] ∧
          Reaches (shell symbol) env .printPrompt ⟨here, s, calls⟩ ⟨atEnd, s', calls⟩ ∨
        (∃ more, rest' = space :: more) ∧
          Reaches (shell symbol) env .printPrompt ⟨here, s, calls⟩ ⟨found, s', calls⟩) := by
  induction rest with
  | nil =>
      intro s pre htext h hat
      obtain ⟨s', hkeeps, ⟨-, hrun⟩ | ⟨c, args, hargs, -⟩⟩ := look_run symbol env calls here
        byte atEnd
        [.branchIf .eq found, .add (.x index) (.x index) 1, .branch here] htext h hat
      · refine ⟨s', [], [], hkeeps.mono (by simp), rfl, List.not_mem_nil, ?_, .inl ⟨rfl,
          Reaches.single hprompt ?_⟩⟩
        · rw [List.append_nil]
          exact (hkeeps.x index (by simpa using hne)).trans hat
        · rw [step_at, hcode]
          exact hrun
      · cases hargs
  | cons c args ih =>
      intro s pre htext h hat
      obtain ⟨s', hkeeps, ⟨hargs, -⟩ | ⟨d, args', hargs, hzero, hrun⟩⟩ := look_run symbol env
        calls here byte atEnd
        [.branchIf .eq found, .add (.x index) (.x index) 1, .branch here] htext h hat
      · cases hargs
      cases hargs
      have hat' : At s' index pre := (hkeeps.x index (by simpa using hne)).trans hat
      have h' := h.keeps hkeeps (by simpa using h2.1) (by simpa using h3.1)
      by_cases hc : c = space
      · subst hc
        refine ⟨s', [], space :: args, hkeeps.mono (by simp), rfl, List.not_mem_nil, ?_,
          .inr ⟨⟨args, rfl⟩, Reaches.single hprompt ?_⟩⟩
        · rw [List.append_nil]
          exact hat'
        · rw [step_at, hcode]
          refine hrun.trans ?_
          simp [runBlock, State.holds, hzero]
      · have hround : step (shell symbol) env ⟨here, s, calls⟩ =
            ⟨here, advance s' index, calls⟩ := by
          rw [step_at, hcode]
          refine hrun.trans ?_
          simp [runBlock, exec, State.get, State.set, State.holds, hzero, advance, hc]
        have hadvance := keeps_advance s' index
        have hround' : Keeps [index, byte] s (advance s' index) :=
          (hkeeps.mono (by simp)).trans (hadvance.mono (by simp))
        have hlater : LineFrom (advance s' index) text (pre ++ [c]).length :=
          (h'.keeps hadvance (by simpa using h2.2) (by simpa using h3.2)).mono (by simp)
        obtain ⟨s₂, arg, rest', hkeeps₂, rfl, harg, hat₂, hrest⟩ := ih (s := advance s' index)
          (show text = (pre ++ [c]) ++ args by simpa using htext) hlater (hat'.advance c)
        have hfirst := Reaches.single hprompt hround
        rw [List.append_assoc, List.singleton_append] at hat₂
        refine ⟨s₂, c :: arg, rest', hround'.trans hkeeps₂, rfl, ?_, hat₂, hrest.imp ?_ ?_⟩
        · rw [List.mem_cons, not_or]
          exact ⟨Ne.symm hc, harg⟩
        · exact fun hend => ⟨hend.1, hfirst.trans hend.2⟩
        · exact fun hspace => ⟨hspace.1, hfirst.trans hspace.2⟩

end Loops

end Chthon.UserShell
