import Chthon.AbyssInodes

/-! The allocator of `kmalloc.c` on machine words, over whole sequences of calls. A pointer is an
offset into `heap`. The limit test adds before it compares, and a request so large that the sum wraps
is granted: the ranges of a sequence of calls are sound just when no request does that. -/

namespace Chthon.KernelHeap

/-- The pointer, if any, and the new `heap_pos`; all three are `size_t`. -/
def kalloc (heapPos size : BitVec 64) : Option (BitVec 64) × BitVec 64 :=
  if heapPos + size > BitVec.ofNat 64 heapSize then (none, heapPos)
  else (some heapPos, heapPos + size)

/-- The new `heap_pos`. -/
def kfree (heapPos _ptr : BitVec 64) : BitVec 64 := heapPos

inductive Call where
  | kalloc (size : BitVec 64)
  | kfree (ptr : BitVec 64)
  deriving DecidableEq

/-- `heap_pos` after a call. -/
def Call.next (heapPos : BitVec 64) : Call → BitVec 64
  | .kalloc size => (KernelHeap.kalloc heapPos size).2
  | .kfree ptr => KernelHeap.kfree heapPos ptr

/-- The range a call hands out, as its start and the length asked for. -/
def Call.range (heapPos : BitVec 64) : Call → Option (Nat × Nat)
  | .kalloc size => (KernelHeap.kalloc heapPos size).1.map fun ptr => (ptr.toNat, size.toNat)
  | .kfree _ => none

/-- The ranges a sequence of calls hands out. -/
def ranges (heapPos : BitVec 64) : List Call → List (Nat × Nat)
  | [] => []
  | call :: calls => (call.range heapPos).toList ++ ranges (call.next heapPos) calls

/-- `heap_pos` before the calls and after each of them. -/
def positions (heapPos : BitVec 64) : List Call → List (BitVec 64)
  | [] => [heapPos]
  | call :: calls => heapPos :: positions (call.next heapPos) calls

/-- The addresses of a range. -/
def addresses (r : Nat × Nat) : Set Nat := Set.Ico r.1 (r.1 + r.2)

structure HandsOut (heapPos : BitVec 64) (calls : List Call) : Prop where
  inside : ∀ r ∈ ranges heapPos calls, r.1 + r.2 ≤ heapSize
  apart : (ranges heapPos calls).Pairwise fun r r' => Disjoint (addresses r) (addresses r')
  rising : (positions heapPos calls).Pairwise (· ≤ ·)

/-- The sum in the limit test does not fit into a word. -/
def Call.Wraps (heapPos : BitVec 64) : Call → Prop
  | .kalloc size => 2 ^ 64 ≤ heapPos.toNat + size.toNat
  | .kfree _ => False

/-- No call of the sequence wraps where it is made. -/
def NoWrap (heapPos : BitVec 64) : List Call → Prop
  | [] => True
  | call :: calls => ¬call.Wraps heapPos ∧ NoWrap (call.next heapPos) calls

section Call

variable {p size : BitVec 64} {call : Call} {calls : List Call} {r : Nat × Nat}

theorem heapSize_eq : heapSize = 1048576 := rfl

/-- The limit test, on numbers. -/
theorem limit_iff : p + size > BitVec.ofNat 64 heapSize ↔
    heapSize < (p.toNat + size.toNat) % 2 ^ 64 := by
  rw [gt_iff_lt, BitVec.lt_def, BitVec.toNat_add, BitVec.toNat_ofNat]
  rfl

/-- Without a wrap a request is refused, or granted at `heap_pos` with the heap's end not passed. -/
theorem kalloc_cases (h : p.toNat + size.toNat < 2 ^ 64) :
    kalloc p size = (none, p) ∧ heapSize < p.toNat + size.toNat ∨
      ∃ q, kalloc p size = (some p, q) ∧ q.toNat = p.toNat + size.toNat ∧ q.toNat ≤ heapSize := by
  have hmod : (p.toNat + size.toNat) % 2 ^ 64 = p.toNat + size.toNat := Nat.mod_eq_of_lt h
  by_cases hlimit : p + size > BitVec.ofNat 64 heapSize
  · refine .inl ⟨if_pos hlimit, ?_⟩
    rwa [limit_iff, hmod] at hlimit
  · refine .inr ⟨p + size, if_neg hlimit, ?_, ?_⟩
    · rw [BitVec.toNat_add, hmod]
    · rwa [limit_iff, Nat.not_lt, ← BitVec.toNat_add] at hlimit

/-- A request whose sum wraps is granted, and no heap could hold its range. -/
theorem kalloc_wrapped (hp : p.toNat ≤ heapSize) (h : 2 ^ 64 ≤ p.toNat + size.toNat) :
    (kalloc p size).1 = some p ∧ heapSize < p.toNat + size.toNat := by
  have hsize := size.isLt
  have hle : ¬p + size > BitVec.ofNat 64 heapSize := by
    rw [limit_iff, heapSize_eq] at *
    omega
  rw [kalloc, if_neg hle]
  exact ⟨rfl, by rw [heapSize_eq]; omega⟩

/-- Where nothing wraps this is the allocator on unbounded numbers. -/
theorem kalloc_toNat (h : p.toNat + size.toNat < 2 ^ 64) :
    Chthon.kalloc p.toNat size.toNat =
      ((kalloc p size).1.map BitVec.toNat, (kalloc p size).2.toNat) := by
  rw [Chthon.kalloc, Nat.mod_eq_of_lt h]
  rcases kalloc_cases h with ⟨hcall, hlimit⟩ | ⟨q, hcall, hq, hlimit⟩
  · rw [hcall, if_pos hlimit]
    rfl
  · rw [hcall, if_neg (by omega), ← hq]
    rfl

/-- What one call does: it moves `heap_pos` up, but not past the heap, and over the range handed out. -/
theorem Call.step (h : ¬call.Wraps p) (hp : p.toNat ≤ heapSize) :
    p.toNat ≤ (call.next p).toNat ∧ (call.next p).toNat ≤ heapSize ∧
      ∀ r ∈ (call.range p).toList, r.1 = p.toNat ∧ r.1 + r.2 = (call.next p).toNat := by
  cases call with
  | kalloc size =>
      rcases kalloc_cases (Nat.not_le.mp h) with ⟨hcall, -⟩ | ⟨q, hcall, hq, hlimit⟩
      · simp only [Call.next, Call.range, hcall, Option.map_none]
        exact ⟨le_rfl, hp, fun r hr => by cases hr⟩
      · simp only [Call.next, Call.range, hcall, Option.map_some, Option.toList_some,
          List.mem_singleton]
        refine ⟨by omega, hlimit, ?_⟩
        rintro r rfl
        exact ⟨rfl, hq.symm⟩
  | kfree ptr => exact ⟨le_rfl, hp, fun r hr => by cases hr⟩

end Call

section Calls

variable {p : BitVec 64} {calls : List Call}

/-- From some `heap_pos` on, everything handed out is above it and below the end of the heap. -/
theorem NoWrap.ranges_above (h : NoWrap p calls) (hp : p.toNat ≤ heapSize) :
    ∀ r ∈ ranges p calls, p.toNat ≤ r.1 ∧ r.1 + r.2 ≤ heapSize := by
  induction calls generalizing p with
  | nil => exact fun r hr => by cases hr
  | cons call calls ih =>
      obtain ⟨hup, hend, hrange⟩ := call.step h.1 hp
      intro r hr
      rcases List.mem_append.mp hr with hr | hr
      · have hr := hrange r hr
        omega
      · have hr := ih h.2 hend r hr
        omega

theorem NoWrap.positions_above (h : NoWrap p calls) (hp : p.toNat ≤ heapSize) :
    ∀ q ∈ positions p calls, p ≤ q := by
  induction calls generalizing p with
  | nil =>
      intro q hq
      rw [positions, List.mem_singleton] at hq
      rw [hq]
      exact BitVec.le_refl p
  | cons call calls ih =>
      obtain ⟨hup, hend, -⟩ := call.step h.1 hp
      intro q hq
      rcases List.mem_cons.mp hq with rfl | hq
      · exact BitVec.le_refl q
      · exact BitVec.le_trans (BitVec.le_def.mpr hup) (ih h.2 hend q hq)

theorem NoWrap.handsOut (h : NoWrap p calls) (hp : p.toNat ≤ heapSize) : HandsOut p calls := by
  induction calls generalizing p with
  | nil =>
      refine ⟨fun r hr => ?_, .nil, List.pairwise_singleton _ _⟩
      cases hr
  | cons call calls ih =>
      obtain ⟨hup, hend, hrange⟩ := call.step h.1 hp
      have hrest := ih h.2 hend
      refine ⟨fun r hr => (h.ranges_above hp r hr).2, ?_, ?_⟩
      · -- a later range starts at the end of this one or behind it
        refine List.pairwise_append.mpr ⟨?_, hrest.apart, ?_⟩
        · cases call.range p
          · exact .nil
          · exact List.pairwise_singleton _ _
        · intro r hr r' hr'
          have hr := hrange r hr
          have hr' := (h.2.ranges_above hend r' hr').1
          rw [addresses, hr.2]
          exact Set.disjoint_left.mpr fun x hx hx' => by
            have := hx.2
            have := hx'.1
            omega
      · refine List.pairwise_cons.mpr ⟨fun q hq => ?_, hrest.rising⟩
        exact BitVec.le_trans (BitVec.le_def.mpr hup) (h.2.positions_above hend q hq)

/-- Ranges inside the heap come from requests that do not wrap. -/
theorem NoWrap.of_inside (h : ∀ r ∈ ranges p calls, r.1 + r.2 ≤ heapSize)
    (hp : p.toNat ≤ heapSize) : NoWrap p calls := by
  induction calls generalizing p with
  | nil => trivial
  | cons call calls ih =>
      have hcall : ¬call.Wraps p := by
        cases call with
        | kalloc size =>
            intro hwraps
            obtain ⟨hgrant, hlong⟩ := kalloc_wrapped hp hwraps
            have hin := h (p.toNat, size.toNat) (by simp [ranges, Call.range, hgrant])
            exact absurd hin (Nat.not_le.mpr hlong)
        | kfree ptr => exact id
      exact ⟨hcall, ih (fun r hr => h r (List.mem_append_right _ hr)) (call.step hcall hp).2.1⟩

/-- From the empty heap the ranges handed out are inside it and disjoint, and `heap_pos` only rises,
just when no request wraps. -/
theorem kalloc_hands_out_iff (calls : List Call) : HandsOut 0 calls ↔ NoWrap 0 calls :=
  ⟨fun h => .of_inside h.inside (Nat.zero_le _), fun h => h.handsOut (Nat.zero_le _)⟩

/-- A request that wraps takes `heap_pos` back to where it was, and the next call hands out the bytes
of the first one again. -/
theorem kalloc_wrap_overlaps : ¬∀ calls : List Call, HandsOut 0 calls := by
  intro h
  have hapart := (h [.kalloc 8, .kalloc (BitVec.ofNat 64 (2 ^ 64 - 8)), .kalloc 8]).apart
  have hranges : ranges 0 [.kalloc 8, .kalloc (BitVec.ofNat 64 (2 ^ 64 - 8)), .kalloc 8] =
      [(0, 8), (8, 2 ^ 64 - 8), (0, 8)] := by decide
  rw [hranges] at hapart
  have hagain : (0, 8) ∈ [((8 : Nat), 2 ^ 64 - 8), (0, 8)] := by simp
  have hdisjoint := List.rel_of_pairwise_cons hapart hagain
  have hshared : 0 ∈ addresses (0, 8) := by simp [addresses]
  exact Set.disjoint_left.mp hdisjoint hshared hshared

/-- Requests that leave room for a whole heap below the end of the address space do not wrap. -/
theorem NoWrap.of_sizes (hp : p.toNat ≤ heapSize)
    (h : ∀ size, Call.kalloc size ∈ calls → size.toNat < 2 ^ 64 - heapSize) : NoWrap p calls := by
  induction calls generalizing p with
  | nil => trivial
  | cons call calls ih =>
      have hcall : ¬call.Wraps p := by
        cases call with
        | kalloc size =>
            have hsize := h size List.mem_cons_self
            rw [heapSize_eq] at hp hsize
            exact Nat.not_le.mpr (by omega)
        | kfree ptr => exact id
      exact ⟨hcall, ih (call.step hcall hp).2.1 fun size hmem => h size (List.mem_cons_of_mem _ hmem)⟩

/-- Requests for a structure, a path buffer, the blocks of the file system or a text with its NUL are
all as small as that. -/
theorem kalloc_hands_out_small (calls : List Call)
    (h : ∀ size, Call.kalloc size ∈ calls → size.toNat < 2 ^ 64 - heapSize) : HandsOut 0 calls :=
  (NoWrap.of_sizes (Nat.zero_le _) h).handsOut (Nat.zero_le _)

end Calls

end Chthon.KernelHeap
