import Chthon.ShellCommands
import Chthon.VfsFrames

/-! Copying and moving in the kernel shell, beside the messages that do the same. `cp` takes the steps
of `MSG_COPY`, but leaves its descriptors open. `mv` unlinks its source without asking whether the copy
was made, where `MSG_MOVE` undoes a copy that was not. -/

namespace Chthon.Shell

open PathText

/-- The same kernel, but for entries of the table that the first one has cleared. -/
def SameButClosed (k₁ k₂ : Kernel) : Prop :=
  { k₁ with fdTable := k₂.fdTable } = k₂ ∧
    ∀ n, k₁.fdTable n = k₂.fdTable n ∨ k₁.fdTable n = none

/-- What `cp` prints when a copy ends in this way; a copy that a failing read has ended counts as
complete. -/
def Reports (src dst printed : Str) : Option Bool → Prop
  | some true => printed = [] ∨ printed = ascii "cp: read error\n"
  | some false => printed = ascii "cp: write error\n"
  | none =>
      printed = ascii "cp: cannot open source file: " ++ src ++ newline ∨
        printed = ascii "cp: cannot create destination file: " ++ dst ++ newline

section Copying

variable {k k₁ k₂ : Kernel}

theorem SameButClosed.refl (k : Kernel) : SameButClosed k k := ⟨rfl, fun _ => .inl rfl⟩

theorem SameButClosed.close (h : SameButClosed k₁ k₂) (fd : Int) :
    SameButClosed (vfsClose k₁ fd).2 k₂ := by
  obtain ⟨hsame, htable⟩ := h
  rw [vfsClose]
  split
  · exact ⟨hsame, htable⟩
  · refine ⟨hsame, fun n => ?_⟩
    by_cases hn : n = fd.toNat
    · right
      rw [hn]
      exact Function.update_self _ _ _
    · have hentry : (k₁.setFile fd none).fdTable n = k₁.fdTable n := Function.update_of_ne hn _ _
      rw [hentry]
      exact htable n

theorem SameButClosed.ramfs (h : SameButClosed k₁ k₂) : k₂.ramfs = k₁.ramfs := by
  have hramfs := congrArg Kernel.ramfs h.1
  exact hramfs.symm

theorem SameButClosed.currentProcess (h : SameButClosed k₁ k₂) :
    k₂.currentProcess = k₁.currentProcess := by
  have hcurrent := congrArg Kernel.currentProcess h.1
  exact hcurrent.symm

/-- The two loops read and write alike. -/
theorem cpLoop_copyLoop (src dst : Str) (srcFd dstFd : Int) (fuel : Nat) : ∀ k : Kernel,
    Option.Rel (fun (copied : Bool × Kernel) (printed : Str × Kernel) =>
        Reports src dst printed.1 (some copied.1) ∧ copied.2 = printed.2)
      (copyLoop srcFd dstFd fuel k) (cpLoop srcFd dstFd fuel k) := by
  induction fuel with
  | zero => exact fun k => .none
  | succ fuel ih =>
      intro k
      rw [copyLoop, cpLoop]
      cases hread : vfsRead k srcFd 1024 with
      | none => exact .none
      | some answer =>
          obtain ⟨bytes, k₁⟩ := answer
          cases bytes with
          | none => exact .some ⟨.inr rfl, rfl⟩
          | some bytes =>
              dsimp only
              by_cases hempty : bytes = []
              · rw [if_pos hempty, if_pos hempty]
                exact .some ⟨.inl rfl, rfl⟩
              · rw [if_neg hempty, if_neg hempty]
                cases hwrite : vfsWrite k₁ dstFd bytes with
                | none => exact .none
                | some answer =>
                    obtain ⟨written, k₂⟩ := answer
                    dsimp only
                    by_cases hshort : written ≠ bytes.length
                    · rw [if_pos hshort, if_pos hshort]
                      exact .some ⟨rfl, rfl⟩
                    · rw [if_neg hshort, if_neg hshort]
                      exact ih k₂

/-- `cp` against the copy of `MSG_COPY` and `MSG_MOVE`. -/
theorem cpFiles_copyFile (k : Kernel) (src dst : Str) :
    Option.Rel (fun (copied : Option Bool × Kernel) (printed : Str × Kernel) =>
        Reports src dst printed.1 copied.1 ∧ SameButClosed copied.2 printed.2)
      (copyFile k src dst) (cpFiles k (some (src, dst))) := by
  rw [copyFile, cpFiles]
  cases hopen : vfsOpen k src with
  | none => exact .none
  | some answer =>
      obtain ⟨srcFd, k₁⟩ := answer
      dsimp only
      by_cases hsrc : srcFd < 0
      · rw [if_pos hsrc, if_pos hsrc]
        exact .some ⟨.inl rfl, .refl k₁⟩
      · rw [if_neg hsrc, if_neg hsrc]
        cases hcreate : vfsCreate k₁ dst with
        | none => exact .none
        | some answer =>
            obtain ⟨dstFd, k₂⟩ := answer
            dsimp only
            by_cases hdst : dstFd < 0
            · rw [if_pos hdst, if_pos hdst]
              exact .some ⟨.inr rfl, (SameButClosed.refl k₂).close srcFd⟩
            · rw [if_neg hdst, if_neg hdst]
              have hloop := cpLoop_copyLoop src dst srcFd dstFd (2 ^ 64) k₂
              generalize copyLoop srcFd dstFd (2 ^ 64) k₂ = copied at hloop ⊢
              generalize cpLoop srcFd dstFd (2 ^ 64) k₂ = printed at hloop ⊢
              cases hloop with
              | none => exact .none
              | some hend =>
                  obtain ⟨hreports, hsame⟩ := hend
                  refine .some ⟨hreports, ?_⟩
                  dsimp only
                  rw [hsame]
                  exact ((SameButClosed.refl _).close srcFd).close dstFd

theorem cpFiles_of_copyFile {src dst : Str} {complete : Option Bool}
    (h : copyFile k src dst = some (complete, k₁)) : ∃ printed k₂,
      cpFiles k (some (src, dst)) = some (printed, k₂) ∧ Reports src dst printed complete ∧
        SameButClosed k₁ k₂ := by
  have hrel := cpFiles_copyFile k src dst
  rw [h] at hrel
  generalize cpFiles k (some (src, dst)) = answer at hrel ⊢
  cases hrel with
  | @some _ printed hend => exact ⟨printed.1, printed.2, rfl, hend⟩

end Copying

/-- `cp` of the kernel shell does to the kernel what `MSG_COPY` does, but for the descriptors, which it
leaves open; and it prints nothing exactly where the message is answered with 0, except that it also
reports a read that failed. -/
theorem cp_as_copy_message (out : Outside) (k : Kernel) (msg : Message) (line src dst : Str)
    (hword : named (commandWord line) = .cp)
    (hargs : (commandArgs line).bind twoWords = some (src, dst))
    (htype : MsgType.all[msg.type]? = some .copy) (hpath : msg.path ≠ 0) (hdata : msg.data ≠ 0)
    (hsrcText : k.text msg.path = some src) (hdstText : k.text msg.data = some dst) :
    Option.Rel (fun (answer : Int × Message × Kernel) (printed : Str × Kernel) =>
        (answer.1 = 0 ↔ printed.1 = [] ∨ printed.1 = ascii "cp: read error\n") ∧
          SameButClosed answer.2.2 printed.2)
      (sendMessage out k msg) (runLine k line) := by
  obtain ⟨args, hsome, hwords⟩ := Option.bind_eq_some_iff.mp hargs
  have hline : runLine k line = cpFiles k (some (src, dst)) := by
    rw [runLine, runCommand, hword, hsome]
    change cpFiles k (twoWords args) = _
    rw [hwords]
  have hsend : sendMessage out k msg = (copyFile k src dst).map fun copied =>
      (if copied.1 = some true then 0 else -1, msg, copied.2) := by
    simp only [sendMessage, htype, withPaths, hpath, hdata, or_self, if_false, hsrcText, hdstText,
      copyMessage, Option.map_map]
    rfl
  have hcopy := cpFiles_copyFile k src dst
  rw [hsend, hline]
  generalize copyFile k src dst = copied at hcopy ⊢
  generalize cpFiles k (some (src, dst)) = printed at hcopy ⊢
  cases hcopy with
  | none => exact .none
  | @some copied printed hend =>
      obtain ⟨hreports, hsame⟩ := hend
      refine .some ⟨?_, hsame⟩
      obtain ⟨complete, k₁⟩ := copied
      dsimp only at hreports ⊢
      cases complete with
      | none =>
          rw [if_neg (by decide)]
          refine iff_of_false (by decide) ?_
          rcases hreports with heq | heq <;> simp [heq, ascii]
      | some complete =>
          cases complete with
          | true => exact iff_of_true rfl hreports
          | false =>
              rw [if_neg (by decide), hreports]
              exact iff_of_false (by decide) (by decide)

/-- `cp /tmp/a /tmp/b` against the message with the same paths. -/
theorem cp_as_copy_message_two_files :
    Option.Rel (fun (answer : Int × Message × Kernel) (printed : Str × Kernel) =>
        (answer.1 = 0 ↔ printed.1 = [] ∨ printed.1 = ascii "cp: read error\n") ∧
          SameButClosed answer.2.2 printed.2)
      (sendMessage ⟨⟨0, 0⟩, 0, some⟩ copyShell copyRequest)
      (runLine copyShell (ascii "cp /tmp/a /tmp/b")) :=
  cp_as_copy_message ⟨⟨0, 0⟩, 0, some⟩ copyShell copyRequest (ascii "cp /tmp/a /tmp/b") tmpA.chars
    tmpB.chars (by decide) (by decide) rfl (by decide) (by decide) (by decide +kernel)
    (by decide +kernel)

/-! Reading a file of RAMFS does not fail, so a copy of one has nothing to report. -/

section Reading

variable {k k' : Kernel} {path printed : Str} {fd srcFd dstFd : Int}

/-- The descriptor leads to a file of RAMFS. -/
def ReadsRamfs (k : Kernel) (fd : Int) : Prop := ∃ i pos, getFile k fd = some ⟨.ramfs, i, pos⟩

/-- A create hands out the next entry and leaves those before it. -/
theorem vfsCreate_keeps (h : vfsCreate k path = some (fd, k')) :
    (0 ≤ fd → fd = k.nextFd) ∧ ∀ n < k.nextFd, k'.fdTable n = k.fdTable n := by
  have hfs : ∀ {fs : FileOps} {full : Str} {file : Option VfsFile} {k₁ : Kernel},
      fsCreate k full fs = some (file, k₁) → k₁.fdTable = k.fdTable ∧ k₁.nextFd = k.nextFd := by
    intro fs full file k₁ hcreate
    cases fs with
    | ramfs =>
        obtain ⟨_, _, heq⟩ := Option.map_eq_some_iff.mp hcreate
        cases heq
        exact ⟨rfl, rfl⟩
    | abyssfs =>
        obtain ⟨_, _, heq⟩ := Option.map_eq_some_iff.mp hcreate
        cases heq
        exact ⟨rfl, rfl⟩
  unfold vfsCreate at h
  split at h
  · cases h
  · cases h
    exact ⟨fun hfd => absurd hfd (by decide), fun _ _ => rfl⟩
  · split at h
    · cases h
    · rename_i hcreate
      cases h
      exact ⟨fun hfd => absurd hfd (by decide), fun n _ => congrFun (hfs hcreate).1 n⟩
    · rename_i file k₁ hcreate
      obtain ⟨htable, hnext⟩ := hfs hcreate
      rcases allocFd_cases k₁ file with ⟨-, halloc⟩ | ⟨-, halloc⟩
      · rw [halloc] at h
        cases h
        exact ⟨fun hfd => absurd hfd (by decide), fun n _ => congrFun htable n⟩
      · rw [halloc] at h
        cases h
        refine ⟨fun _ => by rw [hnext], fun n hn => ?_⟩
        calc (k₁.withFile file).fdTable n = k₁.fdTable n :=
              Function.update_of_ne (by omega) _ _
          _ = k.fdTable n := congrFun htable n

/-- A round leaves the source a file of RAMFS, and its read has not failed. -/
theorem ReadsRamfs.read (h : ReadsRamfs k srcFd) {count : Nat} {bytes : Option Str}
    (hread : vfsRead k srcFd count = some (bytes, k')) : ReadsRamfs k' srcFd ∧ bytes.isSome := by
  obtain ⟨i, pos, hfile⟩ := h
  simp only [vfsRead, hfile] at hread
  obtain ⟨⟨data, file⟩, hramfs, heq⟩ := Option.map_eq_some_iff.mp hread
  cases heq
  have hkept : file = ⟨.ramfs, i, file.fPos⟩ := by
    unfold ramfsRead at hramfs
    dsimp only at hramfs
    split_ifs at hramfs <;> cases hramfs <;> rfl
  refine ⟨⟨i, file.fPos, ?_⟩, rfl⟩
  rw [← hkept]
  exact getFile_setFile hfile

theorem ReadsRamfs.write (h : ReadsRamfs k srcFd) (hne : srcFd ≠ dstFd) {buf : Str} {written : Int}
    (hwrite : vfsWrite k dstFd buf = some (written, k')) : ReadsRamfs k' srcFd := by
  obtain ⟨i, pos, hfile⟩ := h
  refine ⟨i, pos, ?_⟩
  unfold vfsWrite at hwrite
  split at hwrite
  · cases hwrite
    exact hfile
  · rename_i file hdst
    have hpos : 0 ≤ dstFd := (getFile_eq_some.mp hdst).1
    split at hwrite
    · obtain ⟨⟨count, file', fs⟩, _, heq⟩ := Option.map_eq_some_iff.mp hwrite
      cases heq
      exact getFile_setFile_of_ne hpos hfile hne
    · cases hwrite
      exact hfile

theorem cpLoop_silent (fuel : Nat) : ∀ {k : Kernel}, ReadsRamfs k srcFd → srcFd ≠ dstFd →
    cpLoop srcFd dstFd fuel k = some (printed, k') → printed ≠ ascii "cp: read error\n" := by
  induction fuel with
  | zero =>
      intro k _ _ h
      cases h
  | succ fuel ih =>
      intro k hsrc hne h
      rw [cpLoop] at h
      split at h
      · cases h
      · rename_i hread
        have hbytes := (hsrc.read hread).2
        cases hbytes
      · rename_i bytes k₁ hread
        have hsrc₁ := (hsrc.read hread).1
        split_ifs at h
        · cases h
          decide
        · split at h
          · cases h
          · rename_i written k₂ hwrite
            split_ifs at h
            · cases h
              decide
            · exact ih (hsrc₁.write hne hwrite) hne h

end Reading

/-! Moving. -/

/-- The file of slot `i` is gone, and no slot has come into use with anything in it. -/
def Destroyed (k k' : Kernel) (i : Nat) : Prop :=
  (k'.ramfs i).used = false ∧
    ∀ l ≠ i, k'.ramfs l = k.ramfs l ∨ (k.ramfs l).used = false ∧ (k'.ramfs l).size = 0

section Moving

variable {k k' : Kernel} {p : Process} {src dst : CString} {i : Nat}

/-- The two words of `cp_args` are the paths that `cmd_mv` has put there. -/
theorem twoWords_join {args first second : Str} (h : twoWords args = some (first, second)) :
    twoWords (first ++ ascii " " ++ second) = some (first, second) := by
  have hparts : components 32 first = [first] ∧ components 32 second = [second] := by
    rw [twoWords] at h
    split at h
    · rename_i more hwords
      cases h
      have hmem : ∀ c ∈ components 32 args, components 32 c = [c] := fun c hc =>
        components_of_isComponent 32 (mem_components 32 hc).1
      rw [hwords] at hmem
      exact ⟨hmem _ List.mem_cons_self, hmem _ (List.mem_cons_of_mem _ List.mem_cons_self)⟩
    · cases h
  have hjoined : components 32 (first ++ ascii " " ++ second) = [first, second] := by
    calc components 32 (first ++ ascii " " ++ second)
        = components 32 (first ++ 32 :: second) := by
          rw [List.append_assoc]
          rfl
      _ = components 32 first ++ components 32 second := components_append_sep 32 first second
      _ = [first, second] := by rw [hparts.1, hparts.2]; rfl
  rw [twoWords, hjoined]

/-- A slot that has only got a name is not in the way of another name. -/
theorem ramfsFind_named {fs fs' : Ramfs} (h : AtMostNamed fs fs' dst.chars)
    (hlen : dst.chars.length < 32) (hne : src.chars ≠ dst.chars) :
    ramfsFind fs' src.chars = ramfsFind fs src.chars := by
  rcases h with rfl | ⟨j, used, hfree, rfl⟩
  · rfl
  · apply ramfsFind_update_other hfree
    rintro ⟨-, hstores⟩
    rw [strEq_newSlot _ (fun _ _ => rfl) hlen dst.nul_free src.nul_free] at hstores
    exact hne hstores

/-- A copy from RAMFS prints nothing if it is complete. -/
theorem cpFiles_tmp_silent (hcur : k.currentProcess = some p) (hns : p.ns = [])
    (hsrc : tmpPrefix <+: src.chars) (hsrclen : src.chars.length < 32)
    (hfind : ramfsFind k.ramfs src.chars = some i) {printed : Str}
    (h : cpFiles k (some (src.chars, dst.chars)) = some (printed, k')) :
    printed ≠ ascii "cp: read error\n" := by
  have hopen := vfsOpen_tmp hcur hns hsrc (by omega) hfind
  rw [cpFiles] at h
  split_ifs at hopen with hroom
  · have hpos : ¬((k.nextFd : Int) < 0) := by omega
    simp only [hopen, if_neg hpos] at h
    set k₁ := { k with heapPos := (kalloc k.heapPos vfsFileSize).2 }.withFile ⟨.ramfs, i, 0⟩
    have hnext : k.nextFd < k₁.nextFd := Nat.lt_succ_self _
    split at h
    · cases h
    · rename_i dstFd k₂ hcreate
      split_ifs at h with hneg
      · cases h
        simp [ascii]
      · refine cpLoop_silent _ ⟨i, 0, ?_⟩ ?_ h
        · refine getFile_eq_some.mpr ⟨by omega, by omega, ?_⟩
          calc k₂.fdTable (k.nextFd : Int).toNat
            _ = k₁.fdTable k.nextFd := (vfsCreate_keeps hcreate).2 _ hnext
            _ = some ⟨.ramfs, i, 0⟩ := Function.update_self _ _ _
        · rw [(vfsCreate_keeps hcreate).1 (Int.not_lt.mp hneg)]
          omega
  · obtain ⟨k₁, hopen⟩ := hopen
    simp only [hopen] at h
    rw [if_pos (by decide)] at h
    cases h
    simp [ascii]

/-- The line of an `mv`, with the copy and the unlink it makes. -/
theorem runLine_mv {line first second printed : Str} {k₁ k₂ : Kernel}
    (hword : named (commandWord line) = .mv)
    (hargs : (commandArgs line).bind twoWords = some (first, second))
    (hcp : cpFiles k (some (first, second)) = some (printed, k₁))
    (hunlink : vfsUnlink k₁ first = some (0, k₂)) : runLine k line = some (printed, k₂) := by
  obtain ⟨args, hsome, hwords⟩ := Option.bind_eq_some_iff.mp hargs
  have hmv : cmdMv k (some args) = mvFiles (fun line => cmdCp k (some line)) k (some (first, second)) := by
    rw [← hwords]
    rfl
  have hcmdCp : cmdCp k (some (first ++ ascii " " ++ second)) = some (printed, k₁) :=
    (congrArg (cpFiles k) (twoWords_join hwords)).trans hcp
  rw [runLine, runCommand, hword, hsome]
  dsimp only
  rw [hmv, mvFiles, hcmdCp]
  dsimp only
  rw [hunlink]
  rfl

/-- `mv` of the kernel shell within RAMFS. It moves the file exactly when there is room for a second
one, and then prints nothing; otherwise it has destroyed the file, and its message is about the copy. -/
theorem mv_within_ramfs (k : Kernel) (p : Process) (line : Str) (src dst : CString) (i : Nat)
    (hcur : k.currentProcess = some p) (hns : p.ns = []) (hword : named (commandWord line) = .mv)
    (hargs : (commandArgs line).bind twoWords = some (src.chars, dst.chars))
    (hsrc : tmpPrefix <+: src.chars) (hdst : tmpPrefix <+: dst.chars)
    (hsrclen : src.chars.length < 32) (hdstlen : dst.chars.length < 32)
    (hfind : ramfsFind k.ramfs src.chars = some i) (hsize : (k.ramfs i).size ≤ 4096)
    (hfresh : ramfsFind k.ramfs dst.chars = none) :
    ∃ printed k', runLine k line = some (printed, k') ∧
      if RoomForCopy k then printed = [] ∧ MovedTo k k' dst.chars i
      else printed ≠ [] ∧ Destroyed k k' i := by
  have hdiffer : src.chars ≠ dst.chars := by
    intro heq
    rw [heq, hfresh] at hfind
    cases hfind
  rcases copyFile_tmp_cases hcur hns hsrc hdst hsrclen hdstlen hfind hsize with
    ⟨hroom, k₁, hcopy, hnamed⟩ |
    ⟨hroom, k₁, j, rf, hcopy, hfree, hne, hcur', hramfs, hcontents, hused, hbytes⟩
  · obtain ⟨printed, k₂, hcp, hreports, hsame⟩ := cpFiles_of_copyFile hcopy
    have hstill : ramfsFind k₂.ramfs src.chars = some i := by
      rw [hsame.ramfs, ramfsFind_named hnamed hdstlen hdiffer, hfind]
    refine ⟨printed, _, runLine_mv hword hargs hcp (vfsUnlink_tmp hsrc hsrclen hstill), ?_⟩
    rw [if_neg hroom]
    refine ⟨?_, ?_, fun l hl => ?_⟩
    · rcases hreports with heq | heq <;> simp [heq, ascii]
    · dsimp only
      rw [Function.update_self]
    · dsimp only
      rw [Function.update_of_ne hl, hsame.ramfs]
      rcases hnamed with heq | ⟨j, used, hunused, heq⟩
      · exact .inl (congrFun heq l)
      · rw [heq]
        by_cases hlj : l = j
        · rw [hlj, Function.update_self]
          exact .inr ⟨hunused, rfl⟩
        · rw [Function.update_of_ne hlj]
          exact .inl rfl
  · obtain ⟨printed, k₂, hcp, hreports, hsame⟩ := cpFiles_of_copyFile hcopy
    have hstill : ramfsFind k₂.ramfs src.chars = some i := by
      rw [hsame.ramfs, hramfs, ramfsFind_update_other (ramfsFree_some hfree).2, hfind]
      rintro ⟨-, hstores⟩
      rw [strEq_newSlot _ hbytes hdstlen dst.nul_free src.nul_free] at hstores
      exact hdiffer hstores
    refine ⟨printed, _, runLine_mv hword hargs hcp (vfsUnlink_tmp hsrc hsrclen hstill), ?_⟩
    rw [if_pos hroom]
    refine ⟨hreports.resolve_right (cpFiles_tmp_silent hcur hns hsrc hsrclen hfind hcp), ?_⟩
    refine movedTo_of_slots (hsame.currentProcess.trans hcur') hns hdst hdstlen hsize hfresh hfree hne
      ?_ hcontents hused hbytes
    dsimp only
    rw [hsame.ramfs, hramfs, Function.update_of_ne hne]

/-- `mv /tmp/a /tmp/b` with a file `/tmp/a`, and one descriptor left for the two that it takes. -/
theorem mv_within_ramfs_destroys : ∃ printed k',
    runLine { copyShell with nextFd := 31 } (ascii "mv /tmp/a /tmp/b") = some (printed, k') ∧
      printed ≠ [] ∧ Destroyed { copyShell with nextFd := 31 } k' 0 := by
  have hroom : ¬RoomForCopy { copyShell with nextFd := 31 } := by
    rintro ⟨-, -, -, hnext⟩
    exact absurd hnext (by decide)
  obtain ⟨printed, k', hrun, hend⟩ := mv_within_ramfs { copyShell with nextFd := 31 } shellProcess
    (ascii "mv /tmp/a /tmp/b") tmpA tmpB 0 rfl rfl (by decide) (by decide) (by decide) (by decide)
    (by decide) (by decide) (by decide +kernel) (by decide +kernel) (by decide +kernel)
  rw [if_neg hroom] at hend
  exact ⟨printed, k', hrun, hend⟩

end Moving

end Chthon.Shell
