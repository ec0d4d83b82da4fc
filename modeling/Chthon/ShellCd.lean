import Chthon.PathNormalize
import Chthon.ProcessModel

/-! The `cd` of the kernel shell, `user/shell.c`. It takes its argument apart with `strtok_r` and
edits the text of the directory in place, one component after the other. -/

namespace Chthon

open PathText DirectoryTree PathResolution

/-- `get_parent_dir` -/
def getParentDir (path : Str) : Str :=
  if path = ascii "/" then path
  else
    let path := if path.length > 1 ∧ path.getLast? = some slash then path.dropLast else path
    let path := match splitLast slash path with
      | none => path
      | some ([], _) => path.take 1
      | some (dir, _) => dir
    if path = [] then ascii "/" else path

/-- `strcat` to a buffer of `VFS_MAX_PATH` bytes. -/
def strcatPath (dst src : Str) : Option Str :=
  if (dst ++ src).length ≥ maxPath then none else some (dst ++ src)

/-- The body of the loop of `cmd_cd`. -/
def cdComponent (tempPath component : Str) : Option Str :=
  if component = ascii "." then some tempPath
  else if component = ascii ".." then some (getParentDir tempPath)
  else
    (if tempPath ≠ ascii "/" then strcatPath tempPath (ascii "/") else some tempPath).bind
      fun tempPath => strcatPath tempPath component

/-- `temp_path` when `cmd_cd` opens it. -/
def cdTarget (cwd path : Str) : Option Str :=
  let tempPath := if path.head? = some slash then ascii "/" else cwd
  let path := if path.head? = some slash then path.tail else path
  if path.length ≥ maxPath then none else (tokens path).foldlM cdComponent tempPath

def Kernel.setCwd (k : Kernel) (p : ProcessPtr) (cwd : Str) : Kernel :=
  k.setProc p { k.procs p with cwd := cwd }

/-- `cmd_cd`; a missing argument is the empty text. The descriptor of the directory stays open. -/
def cmdCd (k : Kernel) (path : Str) : Option Kernel :=
  match k.current with
  | none => none
  | some p =>
      if path = [] then some (k.setCwd p (ascii "/"))
      else if path = ascii "." then some k
      else if path = ascii ".." then some (k.setCwd p (getParentDir (k.procs p).cwd))
      else
        match cdTarget (k.procs p).cwd path with
        | none => none
        | some tempPath =>
            (vfsOpen k tempPath).map fun (fd, k) => if fd < 0 then k else k.setCwd p tempPath

/-- A path as it reads from the root: on its own if it is absolute, else behind the directory. -/
def composedPath (cwd path : Str) : Str :=
  if path.head? = some slash then path else cwd ++ slash :: path

/-- What a path means in a directory. -/
def resolveFrom (cwd path : Str) : Str := standardResolution (composedPath cwd path)

variable {cs ts : List Str} {c : Str} {k : Kernel} {p : ProcessPtr}

/-! One component. -/

theorem absolute_append (cs : List Str) (c : Str) :
    absolute slash (cs ++ [c]) = render slash cs ++ slash :: c := by
  rw [absolute, if_neg (by simp), render_append, render_singleton]

theorem absolute_eq_root_iff (hcs : ∀ d ∈ cs, IsComponent slash d) :
    absolute slash cs = ascii "/" ↔ cs = [] := by
  have hroot : absolute slash ([] : List Str) = ascii "/" := rfl
  rw [← hroot]
  exact absolute_inj hcs (by simp)

/-- On the text of a component list `get_parent_dir` takes the last component away. -/
theorem getParentDir_absolute (hcs : ∀ d ∈ cs, IsComponent slash d) :
    getParentDir (absolute slash cs) = absolute slash cs.dropLast := by
  induction cs using List.reverseRecOn with
  | nil => rfl
  | append_singleton cs c _ =>
      have hc := hcs c (by simp)
      have hroot : absolute slash (cs ++ [c]) ≠ ascii "/" := fun h => by
        simpa using (absolute_eq_root_iff hcs).mp h
      have hlast : (absolute slash (cs ++ [c])).getLast? ≠ some slash := by
        rw [absolute_append, List.getLast?_append_of_ne_nil _ (List.cons_ne_nil _ _),
          List.getLast?_cons_of_ne_nil hc.1]
        exact fun h => hc.2 (List.mem_of_getLast? h)
      have hcut : splitLast slash (absolute slash (cs ++ [c])) = some (render slash cs, c) := by
        rw [absolute_append, splitLast_append slash hc.2]
      have hshort : ¬ ((absolute slash (cs ++ [c])).length > 1 ∧
          (absolute slash (cs ++ [c])).getLast? = some slash) := fun h => hlast h.2
      rw [List.dropLast_concat]
      simp only [getParentDir, if_neg hroot, if_neg hshort, hcut]
      cases cs with
      | nil => rfl
      | cons d ds => rfl

theorem length_render_normalizeStep (cs : List Str) (c : Str) :
    (render slash (normalizeStep dotName dotdotName cs c)).length ≤
      (render slash cs).length + (c.length + 1) := by
  rw [normalizeStep]
  split_ifs
  · omega
  · induction cs using List.reverseRecOn with
    | nil => simp [render]
    | append_singleton cs d _ =>
        rw [List.dropLast_concat, render_append, List.length_append]
        omega
  · rw [render_append, render_singleton]
    simp

theorem cdComponent_absolute (hcs : ∀ d ∈ cs, IsComponent slash d)
    (hfits : (render slash cs).length + (c.length + 1) < maxPath) :
    cdComponent (absolute slash cs) c =
      some (absolute slash (normalizeStep dotName dotdotName cs c)) := by
  rw [cdComponent, normalizeStep]
  change (if c = dotName then _ else if c = dotdotName then _ else _) = _
  split_ifs with hdot hdotdot hroot
  · rfl
  · rw [getParentDir_absolute hcs]
  · have hne : cs ≠ [] := fun h => hroot ((absolute_eq_root_iff hcs).mpr h)
    have hslash : strcatPath (render slash cs) (ascii "/") =
        some (render slash cs ++ ascii "/") := by
      rw [strcatPath, if_neg]
      simp [ascii]
      omega
    have hname : strcatPath (render slash cs ++ ascii "/") c =
        some (render slash cs ++ ascii "/" ++ c) := by
      rw [strcatPath, if_neg]
      simp [ascii]
      omega
    rw [absolute, if_neg hne, hslash, Option.bind_some, hname, absolute_append, List.append_assoc]
    rfl
  · obtain rfl : cs = [] := (absolute_eq_root_iff hcs).mp (not_not.mp hroot)
    rw [Option.bind_some, strcatPath, if_neg, absolute_append]
    · rfl
    · simp [absolute, render] at hfits ⊢
      omega

/-! The loop. -/

theorem isComponent_normalizeStep (hcs : ∀ d ∈ cs, IsComponent slash d)
    (hc : IsComponent slash c) :
    ∀ d ∈ normalizeStep dotName dotdotName cs c, IsComponent slash d :=
  have hone : ∀ t ∈ [c], Plain dotName dotdotName t → IsComponent slash t :=
    fun _ ht _ => List.mem_singleton.mp ht ▸ hc
  forall_mem_foldl_normalizeStep cs hcs hone

theorem cdLoop_absolute (hts : ∀ t ∈ ts, IsComponent slash t)
    (hcs : ∀ d ∈ cs, IsComponent slash d)
    (hfits : (render slash cs).length + (render slash ts).length < maxPath) :
    ts.foldlM cdComponent (absolute slash cs) =
      some (absolute slash (ts.foldl (normalizeStep dotName dotdotName) cs)) := by
  induction ts generalizing cs with
  | nil => rfl
  | cons t ts ih =>
      have ht := hts t List.mem_cons_self
      have hlen := length_render_normalizeStep cs t
      rw [render_cons] at hfits
      simp only [List.cons_append, List.length_cons, List.length_append] at hfits
      calc (t :: ts).foldlM cdComponent (absolute slash cs)
          = (cdComponent (absolute slash cs) t).bind fun temp => ts.foldlM cdComponent temp := rfl
        _ = ts.foldlM cdComponent (absolute slash (normalizeStep dotName dotdotName cs t)) := by
            rw [cdComponent_absolute hcs (by omega), Option.bind_some]
        _ = some (absolute slash ((t :: ts).foldl (normalizeStep dotName dotdotName) cs)) :=
            ih (fun s hs => hts s (List.mem_cons_of_mem _ hs)) (isComponent_normalizeStep hcs ht)
              (by omega)

theorem normalize_canonical {cwd : Str} (h : CanonicalPath cwd) :
    normalize dotName dotdotName (components slash cwd) = components slash cwd :=
  foldl_normalizeStep_plain [] h.plain

theorem canonicalPath_standardResolution (path : Str) :
    CanonicalPath (standardResolution path) := by
  apply canonical_absolute
  intro c hc
  have hplain : Plain dotName dotdotName c :=
    forall_mem_foldl_normalizeStep [] (by simp) (fun _ _ ht => ht) c hc
  exact ⟨isComponent_normalize path c hc, hplain⟩

/-- `temp_path` is the standard resolution of the argument in the working directory. -/
theorem cdTarget_eq {cwd path : Str} (h : CanonicalPath cwd)
    (hfits : (composedPath cwd path).length < maxPath) :
    cdTarget cwd path = some (resolveFrom cwd path) := by
  rw [composedPath] at hfits
  rw [cdTarget, resolveFrom, composedPath, standardResolution, tokens_eq_components]
  split_ifs at hfits ⊢ with hrooted hlong hlong
  · simp only [List.length_tail] at hlong
    omega
  · obtain ⟨src, rfl⟩ : ∃ src, path = slash :: src := ⟨_, List.eq_cons_of_mem_head? hrooted⟩
    have hlen : (render slash (components slash src)).length ≤ src.length + 1 :=
      length_render_components src
    rw [List.tail_cons, components_sep_cons]
    have hnone : ∀ d ∈ ([] : List Str), IsComponent slash d := by simp
    refine cdLoop_absolute (fun _ ht => (mem_components slash ht).1) hnone ?_
    simp only [render, List.flatMap_nil, List.length_nil, List.length_cons] at hfits hlen ⊢
    omega
  · simp only [List.length_append, List.length_cons] at hfits
    omega
  · have hlen : (render slash (components slash path)).length ≤ path.length + 1 :=
      length_render_components path
    have hcwd := h.eq_absolute
    rw [components_append_sep, DirectoryTree.normalize, List.foldl_append]
    change _ = some (absolute slash ((components slash path).foldl _
      (normalize dotName dotdotName (components slash cwd))))
    rw [normalize_canonical h]
    conv_lhs => rw [hcwd]
    apply cdLoop_absolute (fun _ ht => (mem_components slash ht).1)
      fun d hd => (h.isComponent d hd).1
    have hrender : (render slash (components slash cwd)).length ≤ cwd.length := by
      conv_rhs => rw [hcwd, length_absolute]
      exact le_max_right _ _
    simp only [List.length_append, List.length_cons] at hfits
    omega

/-- A single name is one step from the working directory. -/
theorem resolveFrom_name {cwd : Str} (h : CanonicalPath cwd) (hc : IsComponent slash c) :
    resolveFrom cwd c =
      absolute slash (normalizeStep dotName dotdotName (components slash cwd) c) := by
  have hrelative : c.head? ≠ some slash := fun hhead => hc.2 (List.mem_of_head? hhead)
  rw [resolveFrom, composedPath, if_neg hrelative, standardResolution,
    components_append_component slash _ hc, normalize_append, normalize_canonical h]

theorem resolveFrom_dot {cwd : Str} (h : CanonicalPath cwd) :
    resolveFrom cwd (ascii ".") = cwd := by
  have hname : IsComponent slash (ascii ".") := ⟨by decide, by decide⟩
  calc resolveFrom cwd (ascii ".")
      = absolute slash (components slash cwd) := resolveFrom_name h hname
    _ = cwd := h.eq_absolute.symm

theorem resolveFrom_dotdot {cwd : Str} (h : CanonicalPath cwd) :
    resolveFrom cwd (ascii "..") = getParentDir cwd := by
  have hname : IsComponent slash (ascii "..") := ⟨by decide, by decide⟩
  calc resolveFrom cwd (ascii "..")
      = absolute slash (components slash cwd).dropLast := resolveFrom_name h hname
    _ = getParentDir (absolute slash (components slash cwd)) :=
        (getParentDir_absolute fun c hc => (h.isComponent c hc).1).symm
    _ = getParentDir cwd := by rw [← h.eq_absolute]

theorem setCwd_self (k : Kernel) (p : ProcessPtr) : k.setCwd p (k.procs p).cwd = k := by
  simp [Kernel.setCwd, Kernel.setProc]

/-- From a canonical directory `cmd_cd` works on the standard resolution of its argument, which is
canonical again: `.` and `..` leave it in `cwd` without a check, any other argument is opened. -/
theorem cd_resolves (path : CString) (hcurrent : k.current = some p)
    (hcwd : CanonicalPath (k.procs p).cwd) (hne : path.chars ≠ [])
    (hfits : (composedPath (k.procs p).cwd path.chars).length < maxPath) :
    CanonicalPath (resolveFrom (k.procs p).cwd path.chars) ∧
      cmdCd k path.chars =
        if path.chars = ascii "." ∨ path.chars = ascii ".." then
          some (k.setCwd p (resolveFrom (k.procs p).cwd path.chars))
        else
          (vfsOpen k (resolveFrom (k.procs p).cwd path.chars)).map fun (fd, opened) =>
            if fd < 0 then opened
            else opened.setCwd p (resolveFrom (k.procs p).cwd path.chars) := by
  refine ⟨canonicalPath_standardResolution _, ?_⟩
  simp only [cmdCd, hcurrent, if_neg hne]
  by_cases hdot : path.chars = ascii "."
  · rw [if_pos hdot, if_pos (.inl hdot), hdot, resolveFrom_dot hcwd, setCwd_self]
  by_cases hdotdot : path.chars = ascii ".."
  · rw [if_neg hdot, if_pos hdotdot, if_pos (.inr hdotdot), hdotdot, resolveFrom_dotdot hcwd]
  · rw [if_neg hdot, if_neg hdotdot, if_neg (not_or.mpr ⟨hdot, hdotdot⟩), cdTarget_eq hcwd hfits]

/-- A process in the directory `/a/b`. -/
def nestedKernel : Kernel :=
  { blankKernel with
    current := some (.heap 0)
    procs := fun _ => { zeroProcess with cwd := ascii "/a/b" } }

theorem cd_resolves_up_twice :
    CanonicalPath (ascii "/c") ∧ cmdCd nestedKernel (ascii "../../c") =
      (vfsOpen nestedKernel (ascii "/c")).map fun (fd, opened) =>
        if fd < 0 then opened else opened.setCwd (.heap 0) (ascii "/c") := by
  have hcwd : CanonicalPath (ascii "/a/b") := by
    have hresolved : standardResolution (ascii "/a/b") = ascii "/a/b" := by decide
    exact hresolved ▸ canonicalPath_standardResolution _
  have htarget : resolveFrom (ascii "/a/b") (ascii "../../c") = ascii "/c" := by decide
  have hcd := cd_resolves (k := nestedKernel) (p := .heap 0) ⟨ascii "../../c", by decide⟩ rfl hcwd
    (by decide) (by decide)
  exact htarget ▸ hcd

end Chthon
