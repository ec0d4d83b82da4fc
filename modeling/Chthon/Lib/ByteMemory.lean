import Mathlib

/-! Byte-addressed memory as a total function, with the block writes a C program performs on it
(`memcpy` of a byte list, `memset`, `memmove`) in closed form, little-endian 32-bit words, and
NUL-terminated strings compared in place. Every operation comes with the address range outside
which it changes nothing. -/

namespace ByteMemory

abbrev Memory := Nat → UInt8

/-- Copy a byte list to `[a, a + bs.length)`. -/
def store (m : Memory) (a : Nat) (bs : List UInt8) : Memory :=
  fun x => if a ≤ x then (bs[x - a]?).getD (m x) else m x

/-- Set `n` bytes from `a` on to `b`. -/
def fill (m : Memory) (a n : Nat) (b : UInt8) : Memory :=
  fun x => if a ≤ x ∧ x < a + n then b else m x

/-- Copy `n` bytes from `src` to `dst`; the ranges may overlap. -/
def move (m : Memory) (dst src n : Nat) : Memory :=
  fun x => if dst ≤ x ∧ x < dst + n then m (src + (x - dst)) else m x

/-- The `n` bytes from `a` on. -/
def load (m : Memory) (a n : Nat) : List UInt8 := (List.range n).map fun k => m (a + k)

theorem store_of_lt (m : Memory) {a x : Nat} (bs : List UInt8) (hx : x < a) :
    store m a bs x = m x := by
  simp [store, Nat.not_le.mpr hx]

theorem store_of_ge (m : Memory) {a x : Nat} (bs : List UInt8) (hx : a + bs.length ≤ x) :
    store m a bs x = m x := by
  have hle : a ≤ x := by omega
  rw [store, if_pos hle, List.getElem?_eq_none (by omega), Option.getD_none]

/-- A store changes nothing outside its range. -/
theorem store_outside (m : Memory) {a x : Nat} (bs : List UInt8)
    (hx : x < a ∨ a + bs.length ≤ x) : store m a bs x = m x := by
  rcases hx with hx | hx
  · exact store_of_lt m bs hx
  · exact store_of_ge m bs hx

theorem store_at (m : Memory) (a : Nat) (bs : List UInt8) (k : Nat) (hk : k < bs.length) :
    store m a bs (a + k) = bs[k] := by
  rw [store, if_pos (by omega), Nat.add_sub_cancel_left, List.getElem?_eq_getElem hk,
    Option.getD_some]

@[simp] theorem store_nil (m : Memory) (a : Nat) : store m a [] = m := by
  funext x
  simp [store]

theorem store_cons_head (m : Memory) (a : Nat) (b : UInt8) (bs : List UInt8) :
    store m a (b :: bs) a = b := by
  rw [show a = a + 0 from rfl, store_at m (a + 0) (b :: bs) 0 (by simp)]
  rfl

/-- The bytes are stored one after the other. -/
theorem store_cons (m : Memory) (a : Nat) (c : UInt8) (bs : List UInt8) :
    store (Function.update m a c) (a + 1) bs = store m a (c :: bs) := by
  funext x
  rcases Nat.lt_trichotomy x a with hx | rfl | hx
  · rw [store_of_lt _ _ (by omega), store_of_lt _ _ hx, Function.update_of_ne (by omega)]
  · rw [store_of_lt _ _ (by omega), store_cons_head, Function.update_self]
  · obtain ⟨k, rfl⟩ := Nat.exists_eq_add_of_lt hx
    simp only [store]
    rw [if_pos (by omega), if_pos (by omega), Function.update_of_ne (by omega),
      show a + k + 1 - a = (a + k + 1 - (a + 1)) + 1 by omega, List.getElem?_cons_succ]

theorem store_append (m : Memory) (a : Nat) (bs cs : List UInt8) :
    store (store m a bs) (a + bs.length) cs = store m a (bs ++ cs) := by
  induction bs generalizing m a with
  | nil => rw [store_nil, List.length_nil, Nat.add_zero, List.nil_append]
  | cons b bs ih =>
      rw [List.cons_append, ← store_cons, ← store_cons, ← ih, List.length_cons,
        show a + (bs.length + 1) = a + 1 + bs.length by omega]

/-- A store over a shorter one. -/
theorem store_over (m : Memory) (a : Nat) {bs cs : List UInt8} (h : cs.length ≤ bs.length) :
    store (store m a cs) a bs = store m a bs := by
  funext x
  by_cases hx : a ≤ x ∧ x < a + bs.length
  · obtain ⟨k, rfl⟩ := Nat.exists_eq_add_of_le hx.1
    rw [store_at _ _ _ k (by omega), store_at _ _ _ k (by omega)]
  · rw [store_outside _ _ (by omega), store_outside _ _ (by omega), store_outside _ _ (by omega)]

theorem fill_inside (m : Memory) {a n x : Nat} (b : UInt8) (hlo : a ≤ x) (hhi : x < a + n) :
    fill m a n b x = b := by
  rw [fill, if_pos ⟨hlo, hhi⟩]

theorem fill_outside (m : Memory) {a n x : Nat} (b : UInt8) (hx : x < a ∨ a + n ≤ x) :
    fill m a n b x = m x := by
  rw [fill, if_neg (by omega)]

theorem move_inside (m : Memory) {dst src n x : Nat} (hlo : dst ≤ x) (hhi : x < dst + n) :
    move m dst src n x = m (src + (x - dst)) := by
  rw [move, if_pos ⟨hlo, hhi⟩]

theorem move_outside (m : Memory) {dst src n x : Nat} (hx : x < dst ∨ dst + n ≤ x) :
    move m dst src n x = m x := by
  rw [move, if_neg (by omega)]

@[simp] theorem load_length (m : Memory) (a n : Nat) : (load m a n).length = n := by
  simp [load]

theorem load_getElem (m : Memory) (a n k : Nat) (hk : k < (load m a n).length) :
    (load m a n)[k] = m (a + k) := by
  simp [load]

theorem load_congr {m m' : Memory} {a n : Nat} (h : ∀ k < n, m' (a + k) = m (a + k)) :
    load m' a n = load m a n := by
  apply List.map_congr_left
  intro k hk
  exact h k (List.mem_range.mp hk)

theorem load_add (m : Memory) (a n k : Nat) : load m a (n + k) = load m a n ++ load m (a + n) k := by
  simp only [load, List.range_add, List.map_append, List.map_map, Function.comp_def, Nat.add_assoc]

/-- What was stored is read back. -/
theorem load_store (m : Memory) (a : Nat) (bs : List UInt8) :
    load (store m a bs) a bs.length = bs := by
  apply List.ext_getElem (by simp)
  intro k hk hk'
  rw [load_getElem, store_at m a bs k hk']

/-- Part of what is loaded. -/
theorem load_drop_take (m : Memory) (a n pos count : Nat) (hn : pos + count ≤ n) :
    load m (a + pos) count = ((load m a n).drop pos).take count := by
  apply List.ext_getElem
  · simp only [load_length, List.length_take, List.length_drop]
    omega
  · intro k hk _
    rw [load_length] at hk
    simp only [load_getElem, List.getElem_take, List.getElem_drop, Nat.add_assoc]

/-! Little-endian words. -/

/-- The four bytes of a word, lowest first; the value is reduced to 32 bits. -/
def le32 (v : Nat) : List UInt8 :=
  [UInt8.ofNat v, UInt8.ofNat (v / 256), UInt8.ofNat (v / 65536), UInt8.ofNat (v / 16777216)]

def read32 (m : Memory) (a : Nat) : Nat :=
  (m a).toNat + 256 * (m (a + 1)).toNat + 65536 * (m (a + 2)).toNat + 16777216 * (m (a + 3)).toNat

def write32 (m : Memory) (a v : Nat) : Memory := store m a (le32 v)

@[simp] theorem le32_length (v : Nat) : (le32 v).length = 4 := rfl

theorem write32_outside (m : Memory) {a x : Nat} (v : Nat) (hx : x < a ∨ a + 4 ≤ x) :
    write32 m a v x = m x := store_outside m (le32 v) hx

theorem read32_congr {m m' : Memory} {a : Nat} (h : ∀ k < 4, m' (a + k) = m (a + k)) :
    read32 m' a = read32 m a := by
  simp only [read32, h 1 (by omega), h 2 (by omega), h 3 (by omega)]
  rw [show m' a = m a from h 0 (by omega)]

theorem read32_lt (m : Memory) (a : Nat) : read32 m a < 2 ^ 32 := by
  have h0 := (m a).toNat_lt
  have h1 := (m (a + 1)).toNat_lt
  have h2 := (m (a + 2)).toNat_lt
  have h3 := (m (a + 3)).toNat_lt
  simp only [read32]
  omega

theorem read32_write32 (m : Memory) (a v : Nat) : read32 (write32 m a v) a = v % 2 ^ 32 := by
  have h0 : write32 m a v a = UInt8.ofNat v := store_cons_head _ _ _ _
  have h1 : write32 m a v (a + 1) = UInt8.ofNat (v / 256) := store_at m a (le32 v) 1 (by simp)
  have h2 : write32 m a v (a + 2) = UInt8.ofNat (v / 65536) := store_at m a (le32 v) 2 (by simp)
  have h3 : write32 m a v (a + 3) = UInt8.ofNat (v / 16777216) :=
    store_at m a (le32 v) 3 (by simp)
  simp only [read32, h0, h1, h2, h3, UInt8.toNat_ofNat']
  omega

theorem read32_store (m : Memory) {a : Nat} (v : Nat) (bs : List UInt8) (hv : v < 2 ^ 32) :
    read32 (store m a (le32 v ++ bs)) a = v := by
  have hbyte : ∀ k (hk : k < 4), store m a (le32 v ++ bs) (a + k) = write32 m a v (a + k) := by
    intro k hk
    rw [store_at m a _ k (by simp; omega), write32, store_at m a _ k (by simpa using hk)]
    exact List.getElem_append_left _
  rw [read32_congr hbyte, read32_write32, Nat.mod_eq_of_lt hv]

theorem read32_write32_of_disjoint (m : Memory) {a b : Nat} (v : Nat) (h : b + 4 ≤ a ∨ a + 4 ≤ b) :
    read32 (write32 m a v) b = read32 m b :=
  read32_congr fun k hk => write32_outside m v (by omega)

/-! NUL-terminated strings in memory. -/

/-- The string at `a` is exactly `s` (a `strcmp` of the two returns zero). -/
def strEq (m : Memory) : Nat → List UInt8 → Bool
  | a, [] => m a == 0
  | a, c :: cs => m a == c && strEq m (a + 1) cs

/-- A terminated copy of `s` compares equal to exactly the string `s`. -/
theorem strEq_store (m : Memory) (s t : List UInt8) (hs : 0 ∉ s) (ht : 0 ∉ t) :
    ∀ {a : Nat}, (∀ k (hk : k < s.length), m (a + k) = s[k]) → m (a + s.length) = 0 →
      (strEq m a t = true ↔ t = s) := by
  induction t generalizing s with
  | nil =>
      intro a hbytes hend
      cases s with
      | nil => simpa [strEq] using hend
      | cons c cs =>
          have hc : m a = c := hbytes 0 (by simp)
          have hne : c ≠ 0 := fun h => hs (by simp [h])
          simp [strEq, hc, hne]
  | cons d ds ih =>
      intro a hbytes hend
      cases s with
      | nil =>
          have hd : d ≠ 0 := fun h => ht (by simp [h])
          have hz : m a = 0 := by simpa using hend
          simp [strEq, hz, hd.symm]
      | cons c cs =>
          have hc : m a = c := hbytes 0 (by simp)
          have htail := ih (s := cs) (fun h => hs (List.mem_cons_of_mem _ h))
            (fun h => ht (List.mem_cons_of_mem _ h)) (a := a + 1)
            (fun k hk => by
              have := hbytes (k + 1) (by simpa using hk)
              rwa [show a + 1 + k = a + (k + 1) by omega])
            (by rwa [show a + 1 + cs.length = a + (c :: cs).length by simp; omega])
          simp only [strEq, hc, Bool.and_eq_true, beq_iff_eq, htail, List.cons.injEq]
          constructor
          · rintro ⟨rfl, rfl⟩
            exact ⟨rfl, rfl⟩
          · rintro ⟨rfl, rfl⟩
            exact ⟨rfl, rfl⟩

end ByteMemory
