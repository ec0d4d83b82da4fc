import Chthon.VfsNamespaces

/-! Listing a directory again and again. Every use of a binding takes 256 bytes of a heap that nothing
gives back; once it is full, `resolve_namespace_path` returns the path as it is, and the binding is
out of force without having been undone. -/

namespace Chthon

/-- The binding that `resolve_namespace_path` finds. -/
def inForce (k : Kernel) (path : Str) : Option Namespace :=
  k.currentProcess.bind fun p => p.ns.find? fun b => b.newPath.isPrefixOf path

/-- The path below a binding, where it can be built in the buffer. -/
def boundPath (b : Namespace) (path : Str) : Option Str :=
  let rest := path.drop b.newPath.length
  if rest ≠ [] ∧ rest.head? ≠ some slash ∧ b.oldPath = [] then none
  else if (b.oldPath ++ joint b.oldPath rest ++ rest).length ≥ maxPath then none
  else some (b.oldPath ++ joint b.oldPath rest ++ rest)

/-- The kernel after `n` calls of `vfs_read_dir` on one path. -/
def afterReads (k : Kernel) (path : Str) (maxEntries : Nat) : Nat → Option Kernel
  | 0 => some k
  | n + 1 => (afterReads k path maxEntries n).bind fun k =>
      (vfsReadDir k path maxEntries).map Prod.snd

/-- In each of `n` calls the path stands for the same text and the answer is the same. -/
def Stable (k : Kernel) (path : Str) (maxEntries n : Nat) : Prop :=
  ∃ text answer, ∀ i < n, ∃ k', afterReads k path maxEntries i = some k' ∧
    (resolveNamespacePath k' path).map Prod.fst = some text ∧
    (vfsReadDir k' path maxEntries).map Prod.fst = some answer

/-- A binding for the path leads to the path itself, or has never had a buffer, or gets one each
time. -/
def NoDecay (k : Kernel) (path : Str) (n : Nat) : Prop :=
  ∀ b, inForce k path = some b → boundPath b path = some path ∨ BufferRoom k.heapPos = false ∨
    ∀ i < n, BufferRoom (k.heapPos + maxPath * i) = true

/-- The directory that a resolved path stands for. -/
def dirAnswer (k : Kernel) (text : Str) (maxEntries : Nat) : Option (Option (List (Nat × Str))) :=
  match findMount text with
  | none => some none
  | some fs => fsReadDir k text maxEntries fs

theorem bufferRoom_iff {heapPos : Nat} (h : heapPos ≤ heapSize) :
    BufferRoom heapPos = true ↔ heapPos + maxPath ≤ heapSize := by
  constructor
  · intro hroom
    by_contra hlong
    have hlt : (heapPos + maxPath) % 2 ^ 64 = heapPos + maxPath := by
      apply Nat.mod_eq_of_lt
      simp only [heapSize, maxPath] at h ⊢
      omega
    rw [BufferRoom, kalloc, hlt, if_pos (by omega)] at hroom
    cases hroom
  · intro hle
    rw [BufferRoom, kalloc_of_le hle]
    rfl

/-- On a heap as `kalloc` leaves it, `n` buffers have room together. -/
theorem rooms_iff {heapPos : Nat} (h : heapPos ≤ heapSize) (n : Nat) :
    (∀ i < n, BufferRoom (heapPos + maxPath * i) = true) ↔ heapPos + maxPath * n ≤ heapSize := by
  induction n with
  | zero => simpa using h
  | succ n ih =>
      constructor
      · intro hrooms
        have hbefore := ih.mp fun i hi => hrooms i (by omega)
        rw [Nat.mul_succ, ← Nat.add_assoc]
        exact (bufferRoom_iff hbefore).mp (hrooms n (by omega))
      · intro hle i hi
        have hnext : maxPath * (i + 1) ≤ maxPath * (n + 1) := Nat.mul_le_mul_left _ hi
        rw [Nat.mul_succ] at hnext
        exact (bufferRoom_iff (by omega)).mpr (by omega)

section Resolve

variable (k : Kernel) (path : Str) (maxEntries heapPos : Nat)

theorem resolveNamespacePath_eq : resolveNamespacePath k path =
    match inForce k path with
    | none => some (path, k)
    | some b =>
        if BufferRoom k.heapPos then (boundPath b path).map fun text =>
          (text, { k with heapPos := k.heapPos + maxPath })
        else some (path, k) := by
  rw [resolveNamespacePath, inForce]
  cases k.currentProcess with
  | none => rfl
  | some p =>
      rw [Option.bind_some]
      dsimp only
      cases p.ns.find? fun b => b.newPath.isPrefixOf path with
      | none => rfl
      | some b =>
          dsimp only
          cases hroom : BufferRoom k.heapPos with
          | false =>
              rw [kalloc_no_room hroom]
              rfl
          | true =>
              rw [kalloc_room hroom, if_pos rfl, boundPath]
              simp only [joint]
              split_ifs <;> rfl

theorem resolveNamespacePath_takes {text : Str} {k' : Kernel}
    (h : resolveNamespacePath k path = some (text, k')) :
    ∃ heapPos, k' = { k with heapPos := heapPos } := by
  rw [resolveNamespacePath_eq] at h
  cases hbound : inForce k path with
  | none =>
      rw [hbound] at h
      cases h
      exact ⟨k.heapPos, rfl⟩
  | some b =>
      rw [hbound] at h
      dsimp only at h
      split_ifs at h
      · rw [Option.map_eq_some_iff] at h
        obtain ⟨_, -, heq⟩ := h
        cases heq
        exact ⟨_, rfl⟩
      · cases h
        exact ⟨k.heapPos, rfl⟩

theorem vfsReadDir_eq : vfsReadDir k path maxEntries =
    (resolveNamespacePath k path).bind fun (text, k') =>
      (dirAnswer k' text maxEntries).map fun dirents => (dirents, k') := by
  rw [vfsReadDir]
  cases resolveNamespacePath k path with
  | none => rfl
  | some answer =>
      rw [Option.bind_some]
      dsimp only [dirAnswer]
      cases findMount answer.1 <;> rfl

/-- A listing does not look at the heap. -/
theorem dirAnswer_heap : dirAnswer { k with heapPos := heapPos } path maxEntries =
    dirAnswer k path maxEntries := by
  unfold dirAnswer
  cases findMount path with
  | none => rfl
  | some fs => cases fs <;> rfl

end Resolve

section Runs

variable {k : Kernel} {path text : Str} {maxEntries n : Nat} {answer : Option (List (Nat × Str))}

/-- One call, where the path is resolved with the heap at `before`. -/
theorem read_step {before after : Nat}
    (hstep : resolveNamespacePath { k with heapPos := before } path =
      some (text, { k with heapPos := after }))
    (hlist : dirAnswer k text maxEntries = some answer) :
    vfsReadDir { k with heapPos := before } path maxEntries =
      some (answer, { k with heapPos := after }) := by
  rw [vfsReadDir_eq, hstep, Option.bind_some]
  dsimp only
  rw [dirAnswer_heap, hlist]
  rfl

/-- The calls go along the positions `pos` of the heap, as long as all resolve alike. -/
theorem afterReads_eq (pos : Nat → Nat) (hzero : pos 0 = k.heapPos)
    (hstep : ∀ i < n, resolveNamespacePath { k with heapPos := pos i } path =
      some (text, { k with heapPos := pos (i + 1) }))
    (hlist : dirAnswer k text maxEntries = some answer) :
    ∀ i ≤ n, afterReads k path maxEntries i = some { k with heapPos := pos i } := by
  intro i
  induction i with
  | zero =>
      intro _
      rw [hzero]
      rfl
  | succ i ih =>
      intro hi
      rw [afterReads, ih (by omega), Option.bind_some, read_step (hstep i hi) hlist]
      rfl

theorem stable_of_positions (pos : Nat → Nat) (hzero : pos 0 = k.heapPos)
    (hstep : ∀ i < n, resolveNamespacePath { k with heapPos := pos i } path =
      some (text, { k with heapPos := pos (i + 1) }))
    (hlist : dirAnswer k text maxEntries = some answer) : Stable k path maxEntries n := by
  refine ⟨text, answer, fun i hi => ⟨_, afterReads_eq pos hzero hstep hlist i hi.le, ?_, ?_⟩⟩
  · rw [hstep i hi]
    rfl
  · rw [read_step (hstep i hi) hlist]
    rfl

/-- The first call is defined: so are the text it resolves to and its listing. -/
theorem first_read (hfirst : (vfsReadDir k path maxEntries).isSome) :
    ∃ text k' answer, resolveNamespacePath k path = some (text, k') ∧
      dirAnswer k text maxEntries = some answer := by
  rw [Option.isSome_iff_exists] at hfirst
  obtain ⟨⟨answer, k₁⟩, hread⟩ := hfirst
  rw [vfsReadDir_eq, Option.bind_eq_some_iff] at hread
  obtain ⟨⟨text, k'⟩, hresolve, hlist⟩ := hread
  rw [Option.map_eq_some_iff] at hlist
  obtain ⟨answer', hlist, -⟩ := hlist
  refine ⟨text, k', answer', hresolve, ?_⟩
  obtain ⟨heapPos, rfl⟩ := resolveNamespacePath_takes k path hresolve
  rwa [dirAnswer_heap] at hlist

/-- While there is room, each call takes one buffer. -/
theorem resolve_room {b : Namespace} (hbound : inForce k path = some b) {heapPos : Nat}
    (hroom : BufferRoom heapPos = true) (hpath : boundPath b path = some text) :
    resolveNamespacePath { k with heapPos := heapPos } path =
      some (text, { k with heapPos := heapPos + maxPath }) := by
  rw [resolveNamespacePath_eq, show inForce { k with heapPos := heapPos } path = some b from hbound]
  dsimp only
  rw [if_pos hroom, hpath]
  rfl

/-- Without room, the path stands for itself. -/
theorem resolve_full {b : Namespace} (hbound : inForce k path = some b) {heapPos : Nat}
    (hroom : BufferRoom heapPos = false) :
    resolveNamespacePath { k with heapPos := heapPos } path =
      some (path, { k with heapPos := heapPos }) := by
  rw [resolveNamespacePath_eq, show inForce { k with heapPos := heapPos } path = some b from hbound]
  dsimp only
  rw [if_neg (by rw [hroom]; decide)]

/-- What the first call resolves the path to. -/
theorem resolve_first {b : Namespace} (hbound : inForce k path = some b) {k' : Kernel}
    (h : resolveNamespacePath k path = some (text, k')) :
    if BufferRoom k.heapPos then boundPath b path = some text else text = path := by
  rw [resolveNamespacePath_eq, hbound] at h
  dsimp only at h
  split_ifs at h ⊢ with hroom
  · rw [Option.map_eq_some_iff] at h
    obtain ⟨_, hpath, heq⟩ := h
    cases heq
    exact hpath
  · cases h
    rfl

theorem stable_of_noDecay (hfirst : (vfsReadDir k path maxEntries).isSome)
    (h : NoDecay k path n) : Stable k path maxEntries n := by
  obtain ⟨text, k', answer, hresolve, hlist⟩ := first_read hfirst
  cases hbound : inForce k path with
  | none =>
      rw [resolveNamespacePath_eq, hbound] at hresolve
      cases hresolve
      refine stable_of_positions (fun _ => k.heapPos) rfl (fun i _ => ?_) hlist
      rw [resolveNamespacePath_eq, hbound]
  | some b =>
      have htext := resolve_first hbound hresolve
      rcases h b hbound with hself | hfull | hroom
      · -- with or without a buffer, the text is the path
        obtain rfl : text = path := by
          split_ifs at htext with hroom
          · exact Option.some.inj (htext.symm.trans hself)
          · exact htext
        refine stable_of_positions (fun i => (fun pos => (kalloc pos maxPath).2)^[i] k.heapPos) rfl
          (fun i _ => ?_) hlist
        rw [Function.iterate_succ_apply']
        cases hroom : BufferRoom ((fun pos => (kalloc pos maxPath).2)^[i] k.heapPos) with
        | true => rw [resolve_room hbound hroom hself, kalloc_room hroom]
        | false => rw [resolve_full hbound hroom, kalloc_no_room hroom]
      · have hstays := resolve_full hbound hfull
        cases hresolve.symm.trans hstays
        exact stable_of_positions (fun _ => k.heapPos) rfl (fun i _ => hstays) hlist
      · cases n with
        | zero => exact ⟨text, answer, by simp⟩
        | succ n =>
            rw [if_pos (by simpa using hroom 0 (by omega))] at htext
            refine stable_of_positions (fun i => k.heapPos + maxPath * i) ?_ (fun i hi => ?_) hlist
            · rw [Nat.mul_zero, Nat.add_zero]
            · rw [resolve_room hbound (hroom i hi) htext, Nat.mul_succ, Nat.add_assoc]

theorem noDecay_of_stable (h : Stable k path maxEntries n) : NoDecay k path n := by
  obtain ⟨text, answer, hcalls⟩ := h
  intro b hbound
  by_cases hself : boundPath b path = some path
  · exact .inl hself
  cases hroom : BufferRoom k.heapPos with
  | false => exact .inr (.inl rfl)
  | true =>
      refine .inr (.inr fun i hi => ?_)
      -- as long as there was room, call `i` finds the heap after `i` buffers
      induction i using Nat.strong_induction_on with
      | _ i ih =>
          obtain ⟨k₀, hk₀, hresolve, hread⟩ := hcalls 0 (by omega)
          cases hk₀
          have hdefined : (vfsReadDir k path maxEntries).isSome := by
            rw [← Option.isSome_map, hread]
            rfl
          obtain ⟨text', k', answer', hfirst, hlist⟩ := first_read hdefined
          rw [hfirst] at hresolve
          obtain rfl : text' = text := Option.some.inj hresolve
          have hpath := resolve_first hbound hfirst
          rw [if_pos hroom] at hpath
          obtain ⟨kᵢ, hkᵢ, hresolveᵢ, -⟩ := hcalls i hi
          have hafter := afterReads_eq (fun i => k.heapPos + maxPath * i)
            (by rw [Nat.mul_zero, Nat.add_zero]) (fun j hj => by
              rw [resolve_room hbound (ih j hj (by omega)) hpath, Nat.mul_succ, Nat.add_assoc])
            hlist i le_rfl
          cases hkᵢ.symm.trans hafter
          by_contra hfull
          rw [resolve_full hbound (by simpa using hfull)] at hresolveᵢ
          obtain rfl : path = text' := Option.some.inj hresolveᵢ
          exact hself hpath

/-- **The `n`-th listing is like the first exactly where the binding has a buffer each time, or makes
no difference.** -/
theorem resolution_stable_iff (k : Kernel) (path : Str) (maxEntries n : Nat)
    (hfirst : (vfsReadDir k path maxEntries).isSome) :
    Stable k path maxEntries n ↔ NoDecay k path n :=
  ⟨noDecay_of_stable, stable_of_noDecay hfirst⟩

end Runs

/-- A shell with a file on RAMFS and a binding that shows it at another place. -/
def boundKernel : Kernel :=
  { shellKernel fun _ => 0 with
    ramfs := Function.update ramfsInit 0 (newSlot (ramfsInit 0) (ascii "/tmp/a") true)
    procs := fun _ => { shellProcess with ns := [⟨ascii "/tmp", ascii "/tmp/mine", 16⟩] } }

theorem boundKernel_heap : boundKernel.heapPos = 262144 := by decide +kernel

theorem boundKernel_rooms {n : Nat} (hn : n ≤ 3072) :
    ∀ i < n, BufferRoom (boundKernel.heapPos + maxPath * i) = true := by
  rw [boundKernel_heap, rooms_iff (by decide)]
  simp only [maxPath, heapSize]
  omega

theorem resolution_stable_thousand : Stable boundKernel (ascii "/tmp/mine") 16 1000 :=
  (resolution_stable_iff boundKernel (ascii "/tmp/mine") 16 1000 (by decide +kernel)).mpr
    fun _ _ => .inr (.inr (boundKernel_rooms (by decide)))

/-- After 3072 listings the heap is full, and the next one shows another directory. -/
theorem binding_out_of_force :
    ∃ k', afterReads boundKernel (ascii "/tmp/mine") 16 3072 = some k' ∧
      (vfsReadDir k' (ascii "/tmp/mine") 16).map Prod.fst ≠
        (vfsReadDir boundKernel (ascii "/tmp/mine") 16).map Prod.fst := by
  have hbound : inForce boundKernel (ascii "/tmp/mine") =
      some ⟨ascii "/tmp", ascii "/tmp/mine", 16⟩ := by decide
  have hafter := afterReads_eq (n := 3072) (fun i => boundKernel.heapPos + maxPath * i)
    (by rw [Nat.mul_zero, Nat.add_zero]) (fun i hi => by
      rw [resolve_room hbound (boundKernel_rooms le_rfl i hi)
        (show boundPath _ (ascii "/tmp/mine") = some (ascii "/tmp") by decide), Nat.mul_succ,
        Nat.add_assoc])
    (show dirAnswer boundKernel (ascii "/tmp") 16 = some (some [(1, ascii "."), (1, ascii ".."),
      (2, ascii "a")]) by decide +kernel) 3072 le_rfl
  refine ⟨_, hafter, ?_⟩
  rw [boundKernel_heap]
  decide +kernel

end Chthon
