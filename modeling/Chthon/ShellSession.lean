import Chthon.ShellCommands
import Chthon.VfsFrames

/-! Whole sessions of the kernel shell: where they leave the working directory, what they can touch,
and how long the descriptors last, of which every `cd` to a path, `touch` and `cp` takes some. -/

namespace Chthon.Shell

open PathText DirectoryTree PathResolution

section Resolving

variable {cs ts : List Str} {c temp cwd path : Str}

theorem strcatPath_some {dst src : Str} (h : strcatPath dst src = some temp) : temp = dst ++ src := by
  rw [strcatPath] at h
  split_ifs at h
  exact (Option.some.inj h).symm

/-- Whenever a component fits, it is one step of the resolution. -/
theorem cdComponent_some (hcs : ∀ d ∈ cs, IsComponent slash d)
    (h : cdComponent (absolute slash cs) c = some temp) :
    temp = absolute slash (normalizeStep dotName dotdotName cs c) := by
  rw [cdComponent] at h
  change (if c = dotName then _ else if c = dotdotName then _ else _) = _ at h
  rw [normalizeStep]
  split_ifs at h ⊢ with hdot hdotdot hroot
  · exact (Option.some.inj h).symm
  · rw [← Option.some.inj h, getParentDir_absolute hcs]
  · have hne : cs ≠ [] := fun hnil => hroot ((absolute_eq_root_iff hcs).mpr hnil)
    obtain ⟨temp', hslash, hname⟩ := Option.bind_eq_some_iff.mp h
    calc temp = temp' ++ c := strcatPath_some hname
      _ = absolute slash cs ++ ascii "/" ++ c := by rw [strcatPath_some hslash]
      _ = render slash cs ++ slash :: c := by
          rw [absolute, if_neg hne, List.append_assoc]
          rfl
      _ = absolute slash (cs ++ [c]) := (absolute_append cs c).symm
  · obtain rfl : cs = [] := (absolute_eq_root_iff hcs).mp (not_not.mp hroot)
    calc temp = absolute slash [] ++ c := strcatPath_some h
      _ = absolute slash ([] ++ [c]) := by
          rw [absolute_append]
          rfl

theorem cdLoop_some (hts : ∀ t ∈ ts, IsComponent slash t) (hcs : ∀ d ∈ cs, IsComponent slash d)
    (h : ts.foldlM cdComponent (absolute slash cs) = some temp) :
    temp = absolute slash (ts.foldl (normalizeStep dotName dotdotName) cs) := by
  induction ts generalizing cs with
  | nil => exact (Option.some.inj h).symm
  | cons t ts ih =>
      have ht := hts t List.mem_cons_self
      rw [List.foldlM_cons] at h
      obtain ⟨temp', hstep, hrest⟩ := Option.bind_eq_some_iff.mp h
      rw [cdComponent_some hcs hstep] at hrest
      exact ih (fun s hs => hts s (List.mem_cons_of_mem _ hs)) (isComponent_normalizeStep hcs ht) hrest

/-- A `temp_path` that fits its buffer is the standard resolution, however long the path was on the
way. -/
theorem cdTarget_some (hcwd : CanonicalPath cwd) (h : cdTarget cwd path = some temp) :
    temp = resolveFrom cwd path := by
  rw [cdTarget, tokens_eq_components] at h
  rw [resolveFrom, composedPath, standardResolution]
  split_ifs at h ⊢ with hrooted
  · obtain ⟨src, rfl⟩ : ∃ src, path = slash :: src := ⟨_, List.eq_cons_of_mem_head? hrooted⟩
    rw [List.tail_cons] at h
    rw [components_sep_cons]
    exact cdLoop_some (fun _ ht => (mem_components slash ht).1) (by simp) h
  · rw [components_append_sep, DirectoryTree.normalize, List.foldl_append]
    change temp = absolute slash ((components slash path).foldl _
      (normalize dotName dotdotName (components slash cwd)))
    rw [normalize_canonical hcwd]
    rw [hcwd.eq_absolute] at h
    exact cdLoop_some (fun _ ht => (mem_components slash ht).1)
      (fun d hd => (hcwd.isComponent d hd).1) h

end Resolving

/-! What a command can have done. -/

/-- The directories that `cmd_cd` sets without opening them. -/
def cdUnopened (cwd path : Str) : Option Str :=
  if path = [] then some (ascii "/")
  else if path = ascii "." then some cwd
  else if path = ascii ".." then some (getParentDir cwd)
  else none

/-- Where a `cd` leads that prints nothing. -/
def cdDirectory (cwd path : Str) : Str := if path = [] then ascii "/" else resolveFrom cwd path

/-- The descriptors that a line has taken that prints nothing. -/
def taken (line : Str) : Nat :=
  match named (commandWord line) with
  | .cd => if (commandArgs line).getD [] ∈ [[], ascii ".", ascii ".."] then 0 else 1
  | .touch => 1
  | .cp | .mv => 2
  | _ => 0

section Effects

variable {k k' k₁ : Kernel} {p : ProcessPtr} {out : Str}

/-- `cmd_cd` sets a directory, or has opened the one it sets. -/
theorem runCd_cases {path : Option Str} (hcur : k.current = some p)
    (h : runCd k path = some (out, k')) :
    (∃ cwd, cdUnopened (k.procs p).cwd (path.getD []) = some cwd ∧ out = [] ∧
        k' = k.setCwd p cwd) ∨
      cdUnopened (k.procs p).cwd (path.getD []) = none ∧ ∃ temp fd k₁,
        cdTarget (k.procs p).cwd (path.getD []) = some temp ∧ vfsOpen k temp = some (fd, k₁) ∧
        (fd < 0 ∧ out ≠ [] ∧ k' = k₁ ∨ 0 ≤ fd ∧ out = [] ∧ k' = k₁.setCwd p temp) := by
  simp only [runCd, hcur] at h
  rw [cdUnopened]
  split_ifs at h ⊢ with hempty hdot hdotdot
  · cases h
    exact .inl ⟨_, rfl, rfl, rfl⟩
  · cases h
    exact .inl ⟨_, rfl, rfl, (setCwd_self k p).symm⟩
  · cases h
    exact .inl ⟨_, rfl, rfl, rfl⟩
  · right
    refine ⟨rfl, ?_⟩
    split at h
    · cases h
    · rename_i temp htarget
      obtain ⟨⟨fd, k₁⟩, hopen, heq⟩ := Option.map_eq_some_iff.mp h
      refine ⟨temp, fd, k₁, htarget, hopen, ?_⟩
      dsimp only at heq
      split_ifs at heq with hfd
      · cases heq
        exact .inl ⟨hfd, by simp [ascii, newline], rfl⟩
      · cases heq
        exact .inr ⟨Int.not_lt.mp hfd, rfl, rfl⟩

theorem runCd_effect {path : Option Str} (h : runCd k path = some (out, k')) : OwnOnly k k' := by
  cases hcur : k.current with
  | none =>
      simp only [runCd, hcur] at h
      cases h
  | some p =>
      have hset : ∀ {k₁ : Kernel} (cwd : Str), FilesOnly k k₁ → OwnOnly k (k₁.setCwd p cwd) :=
        fun {k₁} cwd hfiles => .set hfiles hcur cwd (k₁.procs p).ns
      rcases runCd_cases hcur h with ⟨cwd, -, -, rfl⟩ | ⟨-, temp, fd, k₁, -, hopen, hset'⟩
      · exact hset cwd (.refl k)
      · have hfiles := (vfsOpen_effect hopen).1
        rcases hset' with ⟨-, -, rfl⟩ | ⟨-, -, rfl⟩
        · exact ownOnly_of_files hfiles
        · exact hset temp hfiles

/-- A `cd` to a path that prints nothing has opened it. -/
theorem runCd_opens {path : Option Str} (h : runCd k path = some (out, k'))
    (hpath : path.getD [] ∉ [[], ascii ".", ascii ".."]) (hout : out = []) :
    k'.nextFd = k.nextFd + 1 := by
  cases hcur : k.current with
  | none =>
      simp only [runCd, hcur] at h
      cases h
  | some p =>
      rcases runCd_cases hcur h with ⟨cwd, hset, -, -⟩ | ⟨-, temp, fd, k₁, -, hopen, hset⟩
      · rw [cdUnopened] at hset
        simp only [List.mem_cons, List.not_mem_nil, or_false, not_or] at hpath
        rw [if_neg hpath.1, if_neg hpath.2.1, if_neg hpath.2.2] at hset
        cases hset
      · rcases hset with ⟨-, hne, -⟩ | ⟨hfd, -, rfl⟩
        · exact absurd hout hne
        · have hcount := (vfsOpen_effect hopen).2
          rw [if_pos hfd] at hcount
          exact hcount

/-- `cmd_ls` only reads. -/
theorem cmdLs_effect {path : Option Str} (h : cmdLs k path = some (out, k')) : FilesOnly k k' := by
  unfold cmdLs at h
  split at h
  · cases h
  · obtain ⟨_, hread, heq⟩ := Option.map_eq_some_iff.mp h
    cases heq
    exact (vfsReadDir_effect hread).1

theorem cpLoop_effect {src dst : Int} (fuel : Nat) :
    ∀ {k : Kernel}, cpLoop src dst fuel k = some (out, k') → FilesOnlyKept k k' := by
  induction fuel with
  | zero =>
      intro k h
      cases h
  | succ fuel ih =>
      intro k h
      rw [cpLoop] at h
      split at h
      · cases h
      · rename_i hread
        cases h
        exact vfsRead_effect hread
      · rename_i bytes k₁ hread
        have hfirst := vfsRead_effect hread
        split_ifs at h
        · cases h
          exact hfirst
        · split at h
          · cases h
          · rename_i written k₂ hwrite
            have hboth := hfirst.trans (vfsWrite_effect hwrite)
            split_ifs at h
            · cases h
              exact hboth
            · exact hboth.trans (ih h)

/-- A `cp` that prints nothing has opened two files. -/
theorem cpFiles_effect {files : Option (Str × Str)} (h : cpFiles k files = some (out, k')) :
    FilesOnly k k' ∧ (out = [] → k'.nextFd = k.nextFd + 2) := by
  cases files with
  | none =>
      cases h
      exact ⟨.refl k, fun hout => by simp [ascii] at hout⟩
  | some files =>
      obtain ⟨src, dst⟩ := files
      rw [cpFiles] at h
      split at h
      · cases h
      · rename_i srcFd k₁ hopen
        obtain ⟨hfirst, hcount⟩ := vfsOpen_effect hopen
        split_ifs at h with hneg
        · cases h
          exact ⟨hfirst, fun hout => by simp [ascii] at hout⟩
        · rw [if_pos (Int.not_lt.mp hneg)] at hcount
          split at h
          · cases h
          · rename_i dstFd k₂ hcreate
            obtain ⟨hsecond, hcount'⟩ := vfsCreate_effect hcreate
            split_ifs at h with hneg'
            · cases h
              exact ⟨hfirst.trans hsecond, fun hout => by simp [ascii] at hout⟩
            · rw [if_pos (Int.not_lt.mp hneg')] at hcount'
              obtain ⟨hcopy, hkept⟩ := cpLoop_effect _ h
              refine ⟨(hfirst.trans hsecond).trans hcopy, fun _ => ?_⟩
              rw [hkept, hcount', hcount]

theorem cmdTouch_effect {args : Option Str} (h : cmdTouch k args = some (out, k')) :
    FilesOnly k k' ∧ (out = [] → k'.nextFd = k.nextFd + 1) := by
  rw [cmdTouch] at h
  split_ifs at h
  · cases h
    exact ⟨.refl k, fun hout => by simp [ascii] at hout⟩
  · obtain ⟨⟨fd, k₁⟩, hcreate, heq⟩ := Option.map_eq_some_iff.mp h
    obtain ⟨hfiles, hcount⟩ := vfsCreate_effect hcreate
    dsimp only at heq
    split_ifs at heq with hneg
    · cases heq
      exact ⟨hfiles, fun hout => by simp [ascii] at hout⟩
    · cases heq
      obtain ⟨hclose, hkept⟩ := vfsClose_effect k₁ fd
      refine ⟨hfiles.trans hclose, fun _ => ?_⟩
      rw [hkept, hcount, if_pos (Int.not_lt.mp hneg)]

theorem cmdMv_effect {args : Option Str} (h : cmdMv k args = some (out, k')) :
    FilesOnly k k' ∧ (out = [] → k'.nextFd = k.nextFd + 2) := by
  obtain ⟨args, -, h⟩ := Option.bind_eq_some_iff.mp h
  cases hwords : twoWords args with
  | none =>
      rw [hwords] at h
      cases h
      exact ⟨.refl k, fun hout => by simp [ascii] at hout⟩
  | some paths =>
      rw [hwords, mvFiles] at h
      split at h
      · cases h
      · rename_i printed k₁ hcp
        obtain ⟨hcopy, hcount⟩ := cpFiles_effect hcp
        obtain ⟨⟨result, k₂⟩, hunlink, heq⟩ := Option.map_eq_some_iff.mp h
        obtain ⟨hfiles, hkept⟩ := vfsUnlink_effect hunlink
        cases heq
        refine ⟨hcopy.trans hfiles, fun hout => ?_⟩
        have hprinted : printed = [] := by
          split_ifs at hout
          · exact absurd hout (by simp [ascii])
          · exact hout
        rw [hkept, hcount hprinted]

theorem rmTarget_effect {removal : Removal} (h : rmTarget k removal = some (out, k')) :
    FilesOnly k k' := by
  cases removal with
  | usage =>
      cases h
      exact .refl k
  | missing =>
      cases h
      exact .refl k
  | target recursive path =>
      cases recursive with
      | true =>
          obtain ⟨_, hremove, heq⟩ := Option.map_eq_some_iff.mp h
          cases heq
          exact (vfsRemoveRecursive_effect hremove).1
      | false =>
          obtain ⟨_, hunlink, heq⟩ := Option.map_eq_some_iff.mp h
          cases heq
          exact (vfsUnlink_effect hunlink).1

theorem cmdMkdir_effect {args : Option Str} (h : cmdMkdir k args = some (out, k')) :
    FilesOnly k k' := by
  rw [cmdMkdir] at h
  split_ifs at h
  · cases h
    exact .refl k
  · obtain ⟨_, hmkdir, heq⟩ := Option.map_eq_some_iff.mp h
    cases heq
    exact (vfsMkdir_effect hmkdir).1

theorem bindPaths_effect {paths : Option (Str × Str)} (h : bindPaths k paths = some (out, k')) :
    OwnOnly k k' ∧ cwdOf k' = cwdOf k := by
  cases paths with
  | none =>
      cases h
      exact ⟨.refl k, rfl⟩
  | some paths =>
      obtain ⟨_, hbind, heq⟩ := Option.map_eq_some_iff.mp h
      cases heq
      exact bind_effect hbind

theorem unbindPath_effect (k : Kernel) (path : Option Str) :
    OwnOnly k (unbindPath k path).2 ∧ cwdOf (unbindPath k path).2 = cwdOf k := by
  cases path with
  | none => exact ⟨.refl k, rfl⟩
  | some path => exact unbind_effect k path

/-- What one line does to the processes and the descriptors, and that only `cd` sets the directory. -/
theorem runLine_effect {line : Str} (h : runLine k line = some (out, k')) :
    OwnOnly k k' ∧ (out = [] → k.nextFd + taken line ≤ k'.nextFd) ∧
      (named (commandWord line) ≠ .cd → cwdOf k' = cwdOf k) := by
  have hfiles : ∀ {n : Nat}, FilesOnly k k' → (out = [] → k.nextFd + n ≤ k'.nextFd) →
      taken line = n → OwnOnly k k' ∧ (out = [] → k.nextFd + taken line ≤ k'.nextFd) ∧
        (named (commandWord line) ≠ .cd → cwdOf k' = cwdOf k) := by
    intro n hfiles hcount htaken
    rw [htaken]
    exact ⟨ownOnly_of_files hfiles, hcount, fun _ => by rw [cwdOf, hfiles.currentProcess]; rfl⟩
  have hidle : FilesOnly k k' → taken line = 0 → OwnOnly k k' ∧
      (out = [] → k.nextFd + taken line ≤ k'.nextFd) ∧
        (named (commandWord line) ≠ .cd → cwdOf k' = cwdOf k) :=
    fun hsame htaken => hfiles hsame (fun _ => hsame.next) htaken
  rw [runLine, runCommand] at h
  cases hnamed : named (commandWord line) with
  | exit =>
      simp only [hnamed] at h
      cases h
  | echo =>
      simp only [hnamed] at h
      cases h
      rw [hnamed] at hidle
      exact hidle (.refl k) (by rw [taken, hnamed])
  | pwd =>
      simp only [hnamed] at h
      obtain ⟨_, _, heq⟩ := Option.map_eq_some_iff.mp h
      cases heq
      rw [hnamed] at hidle
      exact hidle (.refl k) (by rw [taken, hnamed])
  | cd =>
      simp only [hnamed] at h
      refine ⟨runCd_effect h, fun hout => ?_, fun hne => absurd rfl hne⟩
      rw [taken, hnamed]
      dsimp only
      split_ifs with hunopened
      · exact (runCd_effect h).next
      · exact (runCd_opens h hunopened hout).ge
  | ls =>
      simp only [hnamed] at h
      rw [hnamed] at hidle
      exact hidle (cmdLs_effect h) (by rw [taken, hnamed])
  | cp =>
      simp only [hnamed] at h
      obtain ⟨args, -, hcp⟩ := Option.bind_eq_some_iff.mp h
      obtain ⟨hcopy, hcount⟩ := cpFiles_effect hcp
      rw [hnamed] at hfiles
      exact hfiles hcopy (fun hout => (hcount hout).ge) (by rw [taken, hnamed])
  | touch =>
      simp only [hnamed] at h
      obtain ⟨htouch, hcount⟩ := cmdTouch_effect h
      rw [hnamed] at hfiles
      exact hfiles htouch (fun hout => (hcount hout).ge) (by rw [taken, hnamed])
  | mv =>
      simp only [hnamed] at h
      obtain ⟨hmove, hcount⟩ := cmdMv_effect h
      rw [hnamed] at hfiles
      exact hfiles hmove (fun hout => (hcount hout).ge) (by rw [taken, hnamed])
  | rm =>
      simp only [hnamed] at h
      rw [hnamed] at hidle
      exact hidle (rmTarget_effect h) (by rw [taken, hnamed])
  | mkdir =>
      simp only [hnamed] at h
      rw [hnamed] at hidle
      exact hidle (cmdMkdir_effect h) (by rw [taken, hnamed])
  | bind =>
      simp only [hnamed] at h
      obtain ⟨args, -, hbind⟩ := Option.bind_eq_some_iff.mp h
      obtain ⟨hown, hcwd⟩ := bindPaths_effect hbind
      refine ⟨hown, fun _ => ?_, fun _ => hcwd⟩
      rw [taken, hnamed]
      exact hown.next
  | unbind =>
      simp only [hnamed] at h
      obtain ⟨hown, hcwd⟩ := unbindPath_effect k (commandArgs line)
      rw [Option.some.inj h] at hown hcwd
      refine ⟨hown, fun _ => ?_, fun _ => hcwd⟩
      rw [taken, hnamed]
      exact hown.next
  | unknown =>
      simp only [hnamed] at h
      cases h
      rw [hnamed] at hidle
      exact hidle (.refl k) (by rw [taken, hnamed])

end Effects

section Sessions

variable {k k' : Kernel} {p : ProcessPtr} {lines outs : List Str}

/-- The first line of a session, and the rest. -/
theorem session_cons {line : Str} (h : session k (line :: lines) = some (outs, k')) :
    ∃ out k₁ outs', outs = out :: outs' ∧ runLine k line = some (out, k₁) ∧
      session k₁ lines = some (outs', k') := by
  rw [session, Option.bind_eq_some_iff] at h
  obtain ⟨⟨out, k₁⟩, hline, hrest⟩ := h
  obtain ⟨⟨outs', k₂⟩, hsession, heq⟩ := Option.map_eq_some_iff.mp hrest
  cases heq
  exact ⟨out, k₁, outs', rfl, hline, hsession⟩

/-- A session of the kernel shell has changed no process but its own, and there only the working
directory and the bindings; heap and descriptors are only taken. -/
theorem session_own_only (h : session k lines = some (outs, k')) : OwnOnly k k' := by
  induction lines generalizing k outs with
  | nil =>
      cases h
      exact .refl _
  | cons line lines ih =>
      obtain ⟨out, k₁, outs', -, hline, hrest⟩ := session_cons h
      exact (runLine_effect hline).1.trans (ih hrest)

/-- `cd ..` and `pwd` in the directory `/a/b`. -/
def upLines : List Str := [ascii "cd ..", ascii "pwd"]

theorem session_up : session nestedKernel upLines =
    some ([[], ascii "/a\n"], nestedKernel.setCwd (.heap 0) (ascii "/a")) := by
  have hcd : named (commandWord (ascii "cd ..")) = .cd := by decide
  have hpwd : named (commandWord (ascii "pwd")) = .pwd := by decide
  simp only [session, upLines, runLine, runCommand, hcd, hpwd]
  rfl

theorem session_own_only_up : OwnOnly nestedKernel (nestedKernel.setCwd (.heap 0) (ascii "/a")) :=
  session_own_only session_up

/-- The descriptors that the lines have taken that print nothing. -/
def takenIn : List Str → List Str → Nat
  | line :: lines, out :: outs => (if out = [] then taken line else 0) + takenIn lines outs
  | _, _ => 0

theorem takenIn_le (h : session k lines = some (outs, k')) :
    k.nextFd + takenIn lines outs ≤ k'.nextFd := by
  induction lines generalizing k outs with
  | nil =>
      cases h
      exact le_rfl
  | cons line lines ih =>
      obtain ⟨out, k₁, outs', rfl, hline, hrest⟩ := session_cons h
      obtain ⟨hown, hcount, -⟩ := runLine_effect hline
      have hfirst : k.nextFd + (if out = [] then taken line else 0) ≤ k₁.nextFd := by
        split_ifs with hout
        · exact hcount hout
        · exact hown.next
      calc k.nextFd + takenIn (line :: lines) (out :: outs')
          = k.nextFd + (if out = [] then taken line else 0) + takenIn lines outs' := by
            rw [takenIn, Nat.add_assoc]
        _ ≤ k₁.nextFd + takenIn lines outs' := Nat.add_le_add_right hfirst _
        _ ≤ k'.nextFd := ih hrest

/-- No session gets more out of the table than it has entries: a `cd` to a path and a `touch` that
print nothing have taken one for good, a `cp` and a `mv` two. Once they are used up, each of these
lines prints an error. -/
theorem session_descriptors_bound (h : session k lines = some (outs, k')) (hk : k.nextFd ≤ 32) :
    takenIn lines outs ≤ 32 - k.nextFd := by
  have htaken := takenIn_le h
  have hbound : k'.nextFd ≤ 32 := (session_own_only h).bound hk
  omega

/-- Two descriptors are left, and a `touch` takes the first of them. -/
theorem session_descriptors_bound_touch : ∃ outs k',
    session { copyShell with nextFd := 30 } [ascii "touch /tmp/c", ascii "cp /tmp/c /tmp/d"] =
        some (outs, k') ∧
      takenIn [ascii "touch /tmp/c", ascii "cp /tmp/c /tmp/d"] outs ≤ 32 - 30 := by
  have hruns : (session { copyShell with nextFd := 30 }
      [ascii "touch /tmp/c", ascii "cp /tmp/c /tmp/d"]).isSome = true := by decide +kernel
  obtain ⟨⟨outs, k'⟩, hsession⟩ := Option.isSome_iff_exists.mp hruns
  exact ⟨outs, k', hsession, session_descriptors_bound hsession (by decide)⟩

/-- The directory that the `cd` lines of a session lead to which print nothing. -/
def directoryAfter (cwd : Str) : List Str → List Str → Str
  | line :: lines, out :: outs =>
      directoryAfter
        (if named (commandWord line) = .cd ∧ out = [] then
          cdDirectory cwd ((commandArgs line).getD []) else cwd)
        lines outs
  | _, _ => cwd

theorem canonicalPath_cdDirectory (cwd path : Str) : CanonicalPath (cdDirectory cwd path) := by
  rw [cdDirectory]
  split_ifs
  · have hroot : standardResolution (ascii "/") = ascii "/" := by decide
    exact hroot ▸ canonicalPath_standardResolution _
  · exact canonicalPath_standardResolution _

/-- A `cd` that prints nothing has gone to the standard resolution of its argument. -/
theorem runCd_directory {path : Option Str} {out : Str} (hcur : k.current = some p)
    (hcwd : CanonicalPath (k.procs p).cwd) (h : runCd k path = some (out, k')) :
    (k'.procs p).cwd =
      if out = [] then cdDirectory (k.procs p).cwd (path.getD []) else (k.procs p).cwd := by
  have hset : ∀ (k₁ : Kernel) (cwd : Str), ((k₁.setCwd p cwd).procs p).cwd = cwd := by
    intro k₁ cwd
    rw [Kernel.setCwd, Kernel.setProc]
    dsimp only
    rw [Function.update_self]
  rcases runCd_cases hcur h with ⟨cwd, hunopened, rfl, rfl⟩ | ⟨hopened, temp, fd, k₁, htarget, hopen, hend⟩
  · rw [hset, if_pos rfl, cdDirectory]
    rw [cdUnopened] at hunopened
    split_ifs at hunopened ⊢ with hempty hdot hdotdot
    · exact (Option.some.inj hunopened).symm
    · rw [hdot, resolveFrom_dot hcwd]
      exact (Option.some.inj hunopened).symm
    · rw [hdotdot, resolveFrom_dotdot hcwd]
      exact (Option.some.inj hunopened).symm
  · rcases hend with ⟨-, hne, rfl⟩ | ⟨-, rfl, rfl⟩
    · rw [if_neg hne, (vfsOpen_effect hopen).1.procs]
    · rw [hset, if_pos rfl, cdDirectory]
      split_ifs with hempty
      · rw [cdUnopened, if_pos hempty] at hopened
        cases hopened
      · exact cdTarget_some hcwd htarget

theorem runLine_directory {line out : Str} (hcur : k.current = some p)
    (hcwd : CanonicalPath (k.procs p).cwd) (h : runLine k line = some (out, k')) :
    (k'.procs p).cwd =
      if named (commandWord line) = .cd ∧ out = [] then
        cdDirectory (k.procs p).cwd ((commandArgs line).getD []) else (k.procs p).cwd := by
  by_cases hcd : named (commandWord line) = .cd
  · rw [runLine, runCommand, hcd] at h
    have hdirectory := runCd_directory hcur hcwd h
    simp only [hcd, true_and]
    exact hdirectory
  · have hkept := (runLine_effect h).2.2 hcd
    have hcur' : k'.current = some p := (runLine_effect h).1.current.trans hcur
    rw [cwdOf, cwdOf, Kernel.currentProcess, Kernel.currentProcess, hcur, hcur'] at hkept
    rw [if_neg fun hboth => hcd hboth.1]
    exact Option.some.inj hkept

/-- The working directory of a session is always canonical, and is where the `cd` lines that print
nothing lead one after the other, each of them resolved in the directory before it. -/
theorem session_directory (h : session k lines = some (outs, k')) (hcur : k.current = some p)
    (hcwd : CanonicalPath (k.procs p).cwd) :
    CanonicalPath (k'.procs p).cwd ∧
      (k'.procs p).cwd = directoryAfter (k.procs p).cwd lines outs := by
  induction lines generalizing k outs with
  | nil =>
      cases h
      exact ⟨hcwd, rfl⟩
  | cons line lines ih =>
      obtain ⟨out, k₁, outs', rfl, hline, hrest⟩ := session_cons h
      have hdirectory := runLine_directory hcur hcwd hline
      have hcur' : k₁.current = some p := (runLine_effect hline).1.current.trans hcur
      have hcwd' : CanonicalPath (k₁.procs p).cwd := by
        rw [hdirectory]
        split_ifs
        · exact canonicalPath_cdDirectory _ _
        · exact hcwd
      rw [directoryAfter, ← hdirectory]
      exact ih hrest hcur' hcwd'

theorem session_directory_up : CanonicalPath (ascii "/a") ∧
    ascii "/a" = directoryAfter (ascii "/a/b") upLines [[], ascii "/a\n"] := by
  have hcwd : CanonicalPath (ascii "/a/b") := by
    have hresolved : standardResolution (ascii "/a/b") = ascii "/a/b" := by decide
    exact hresolved ▸ canonicalPath_standardResolution _
  exact session_directory (p := .heap 0) session_up rfl hcwd

end Sessions

end Chthon.Shell
