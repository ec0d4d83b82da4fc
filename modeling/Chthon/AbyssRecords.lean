import Chthon.AbyssInodes

/-! Directory blocks as lists of records. `Listing` relates the packed bytes of a block to the list
of its entries: every record but the last occupies exactly the length its name needs, the last may
be longer (the `..` of a new directory is), and a zero length ends the walk at least six bytes
before the end of the block. Lookup, appending and removing are then list operations. -/

namespace Chthon

open ByteMemory

/-- A directory entry with a name whose record length fits in one byte. -/
structure DirEntry where
  inode : Nat
  name : Str
  inode_lt : inode < 2 ^ 32
  nul_free : 0 ∉ name
  short : name.length ≤ 245

/-- The length of a packed record: the fixed part, the name and its NUL, rounded up to 4. -/
def DirEntry.span (r : DirEntry) : Nat := (r.name.length + 10) / 4 * 4

def extent (rs : List DirEntry) : Nat := (rs.map DirEntry.span).sum

/-- Eight-bit rounding is exact up to 252. -/
theorem roundUp_four (v : Nat) (hv : v ≤ 252) :
    (roundUp (UInt8.ofNat v) 4).toNat = (v + 3) / 4 * 4 := by
  have hall : ∀ v : Fin 253, (roundUp (UInt8.ofNat v.val) 4).toNat = (v.val + 3) / 4 * 4 := by
    decide +kernel
  exact hall ⟨v, by omega⟩

theorem minRecLen_of_le {n : Nat} (hn : n ≤ 245) : (minRecLen n).toNat = (n + 10) / 4 * 4 := by
  rw [minRecLen, roundUp_four _ (by omega)]
  congr 2
  omega

theorem DirEntry.minRecLen_eq (r : DirEntry) : (minRecLen r.name.length).toNat = r.span :=
  minRecLen_of_le r.short

theorem DirEntry.le_span (r : DirEntry) : r.name.length + 7 ≤ r.span := by
  rw [span]
  omega

theorem DirEntry.eight_le_span (r : DirEntry) : 8 ≤ r.span := by
  rw [span]
  omega

/-- The record of `r` stands at `a`, with the length field `l`. -/
structure RecordAt (m : Memory) (a : Nat) (r : DirEntry) (l : Nat) : Prop where
  inode_eq : entryInode m a = r.inode
  len_eq : nameLen m a = r.name.length
  rec_eq : recLen m a = l
  name_eq : ∀ k (hk : k < r.name.length), m (entryName a + k) = r.name[k]
  nul_eq : m (entryName a + r.name.length) = 0

/-- The records of `rs` stand one after the other from `a` to `e`. -/
def Packed (m : Memory) : Nat → List DirEntry → Nat → Prop
  | a, [], e => a = e
  | a, r :: rs, e => RecordAt m a r r.span ∧ Packed m (a + r.span) rs e

/-- The last record of a block that ends at `limit`, and the zero length after it. -/
structure LastAt (m : Memory) (limit a : Nat) (r : DirEntry) (l : Nat) : Prop where
  record : RecordAt m a r l
  span_le : r.span ≤ l
  room : a + l + 6 ≤ limit
  stop : recLen m (a + l) = 0

/-- The records from `a` to the end of the walk are `rs`. -/
def Listing (m : Memory) (limit a : Nat) (rs : List DirEntry) : Prop :=
  ∃ init last e l, rs = init ++ [last] ∧ Packed m a init e ∧ LastAt m limit e last l

/-! Records depend only on their own bytes. -/

theorem RecordAt.congr {m m' : Memory} {a : Nat} {r : DirEntry} {l : Nat} (h : RecordAt m a r l)
    (hm : ∀ x, a ≤ x → x < a + r.name.length + 7 → m' x = m x) : RecordAt m' a r l where
  inode_eq := by rw [← h.inode_eq]; exact read32_congr fun k hk => hm _ (by omega) (by omega)
  len_eq := by rw [← h.len_eq, nameLen, hm _ (by omega) (by omega)]; rfl
  rec_eq := by rw [← h.rec_eq, recLen, hm _ (by omega) (by omega)]; rfl
  name_eq k hk := by
    rw [← h.name_eq k hk]
    exact hm _ (by rw [entryName]; omega) (by rw [entryName]; omega)
  nul_eq := by
    rw [← h.nul_eq]
    exact hm _ (by rw [entryName]; omega) (by rw [entryName]; omega)

/-- A record whose bytes have been moved to another address. -/
theorem RecordAt.moved {m m' : Memory} {a a' : Nat} {r : DirEntry} {l : Nat} (h : RecordAt m a r l)
    (hm : ∀ k < r.name.length + 7, m' (a' + k) = m (a + k)) : RecordAt m' a' r l where
  inode_eq := by
    rw [← h.inode_eq, entryInode, entryInode, read32, read32, hm 1 (by omega), hm 2 (by omega),
      hm 3 (by omega)]
    rw [show m' a' = m a from hm 0 (by omega)]
  len_eq := by rw [← h.len_eq, nameLen, hm 4 (by omega)]; rfl
  rec_eq := by rw [← h.rec_eq, recLen, hm 5 (by omega)]; rfl
  name_eq k hk := by
    rw [← h.name_eq k hk, entryName, entryName, Nat.add_assoc, Nat.add_assoc]
    exact hm _ (by omega)
  nul_eq := by
    rw [← h.nul_eq, entryName, entryName, Nat.add_assoc, Nat.add_assoc]
    exact hm _ (by omega)

theorem RecordAt.strEq_iff {m : Memory} {a : Nat} {r : DirEntry} {l : Nat} (h : RecordAt m a r l)
    {token : Str} (ht : 0 ∉ token) : strEq m (entryName a) token = true ↔ r.name = token := by
  rw [strEq_store m r.name token r.nul_free ht h.name_eq h.nul_eq, eq_comm]

/-- The bytes of a record, as `store` lays them out. -/
theorem RecordAt.of_store (m : Memory) (a : Nat) (r : DirEntry) (l : UInt8) :
    RecordAt (store m a (recordBytes r.inode (UInt8.ofNat r.name.length) l r.name)) a r l.toNat := by
  set bs := recordBytes r.inode (UInt8.ofNat r.name.length) l r.name with hbs
  have hlen : bs.length = r.name.length + 7 := by simp [hbs, recordBytes]; omega
  have hshort := r.short
  have hbyte : ∀ k (hk : k < bs.length), store m a bs (a + k) = bs[k] := store_at m a bs
  refine ⟨?_, ?_, ?_, ?_, ?_⟩
  · rw [entryInode, hbs, recordBytes, List.append_assoc]
    exact read32_store m r.inode _ r.inode_lt
  · rw [nameLen, hbyte 4 (by omega)]
    simp only [hbs, recordBytes, le32, List.cons_append, List.nil_append, List.getElem_cons_succ,
      List.getElem_cons_zero, UInt8.toNat_ofNat']
    omega
  · rw [recLen, hbyte 5 (by omega)]
    simp [hbs, recordBytes, le32]
  · intro k hk
    rw [entryName, Nat.add_assoc, hbyte (6 + k) (by omega)]
    simp only [hbs, recordBytes, le32, List.cons_append, List.nil_append]
    simp only [show 6 + k = k + 1 + 1 + 1 + 1 + 1 + 1 by omega, List.getElem_cons_succ]
    exact List.getElem_append_left hk
  · rw [entryName, Nat.add_assoc, hbyte (6 + r.name.length) (by omega)]
    simp only [hbs, recordBytes, le32, List.cons_append, List.nil_append]
    simp only [show 6 + r.name.length = r.name.length + 1 + 1 + 1 + 1 + 1 + 1 by omega,
      List.getElem_cons_succ]
    simp

/-! Packed sequences. -/

theorem Packed.end_eq {m : Memory} {rs : List DirEntry} :
    ∀ {a e : Nat}, Packed m a rs e → e = a + extent rs := by
  induction rs with
  | nil => intro a e h; simpa [extent] using Eq.symm h
  | cons r rs ih =>
      intro a e h
      rw [ih h.2]
      simp [extent]
      omega

theorem Packed.append {m : Memory} {rs ss : List DirEntry} :
    ∀ {a b e : Nat}, Packed m a rs b → Packed m b ss e → Packed m a (rs ++ ss) e := by
  induction rs with
  | nil => intro a b e h h'; obtain rfl : a = b := h; exact h'
  | cons r rs ih => intro a b e h h'; exact ⟨h.1, ih h.2 h'⟩

theorem Packed.split {m : Memory} {rs ss : List DirEntry} :
    ∀ {a e : Nat}, Packed m a (rs ++ ss) e → ∃ b, Packed m a rs b ∧ Packed m b ss e := by
  induction rs with
  | nil => intro a e h; exact ⟨a, rfl, h⟩
  | cons r rs ih =>
      intro a e h
      obtain ⟨b, hrs, hss⟩ := ih h.2
      exact ⟨b, ⟨h.1, hrs⟩, hss⟩

theorem Packed.congr {m m' : Memory} {rs : List DirEntry} :
    ∀ {a e : Nat}, Packed m a rs e → (∀ x, a ≤ x → x < e → m' x = m x) → Packed m' a rs e := by
  induction rs with
  | nil => intro a e h _; exact h
  | cons r rs ih =>
      intro a e h hm
      have hend := h.2.end_eq
      have hspan := r.le_span
      refine ⟨h.1.congr fun x hlo hhi => hm x hlo (by omega), ih h.2 fun x hlo hhi => ?_⟩
      exact hm x (by omega) hhi

theorem Packed.moved {m m' : Memory} {rs : List DirEntry} :
    ∀ {a a' e : Nat}, Packed m a rs e → (∀ k, a + k < e → m' (a' + k) = m (a + k)) →
      Packed m' a' rs (a' + extent rs) := by
  induction rs with
  | nil => intro a a' e _ _; simp [Packed, extent]
  | cons r rs ih =>
      intro a a' e h hm
      have hend := h.2.end_eq
      have hspan := r.le_span
      refine ⟨h.1.moved fun k hk => hm k (by omega), ?_⟩
      have htail : Packed m' (a' + r.span) rs (a' + r.span + extent rs) := ih h.2 fun k hk => by
        have := hm (r.span + k) (by omega)
        rwa [← Nat.add_assoc, ← Nat.add_assoc] at this
      rwa [show a' + r.span + extent rs = a' + extent (r :: rs) by simp [extent]; omega] at htail

theorem length_le_extent (rs : List DirEntry) : 8 * rs.length ≤ extent rs := by
  induction rs with
  | nil => simp [extent]
  | cons r rs ih =>
      have := r.eight_le_span
      simp only [extent, List.map_cons, List.sum_cons, List.length_cons] at ih ⊢
      omega

@[simp] theorem extent_append (rs ss : List DirEntry) :
    extent (rs ++ ss) = extent rs + extent ss := by
  simp [extent]

@[simp] theorem extent_cons (r : DirEntry) (rs : List DirEntry) :
    extent (r :: rs) = r.span + extent rs := by
  simp [extent]

@[simp] theorem extent_nil : extent [] = 0 := rfl

/-! Walks. -/

section Walk

variable {m : Memory} {limit : Nat} {token : Str}

theorem findEntry_hit {a : Nat} {r : DirEntry} {l : Nat} (h : RecordAt m a r l) (hl : 0 < l)
    (hname : r.name = token) (fuel : Nat) :
    findEntry m token (fuel + 1) a = some (some a) := by
  have htoken : 0 ∉ token := hname ▸ r.nul_free
  rw [findEntry, h.rec_eq, if_neg (by omega), if_pos ((h.strEq_iff htoken).mpr hname)]

theorem findEntry_miss {a : Nat} {r : DirEntry} {l : Nat} (h : RecordAt m a r l) (hl : 0 < l)
    (htoken : 0 ∉ token) (hname : r.name ≠ token) (fuel : Nat) :
    findEntry m token (fuel + 1) a = findEntry m token fuel (a + l) := by
  have hne : ¬ strEq m (entryName a) token = true := fun heq => hname ((h.strEq_iff htoken).mp heq)
  rw [findEntry, h.rec_eq, if_neg (by omega), if_neg hne]

/-- Over packed records the search stops at the first match, or comes out at their end. -/
theorem findEntry_packed (htoken : 0 ∉ token) {rs : List DirEntry} :
    ∀ {a e : Nat} (fuel : Nat), Packed m a rs e → rs.length ≤ fuel →
      (∃ pre r post b, rs = pre ++ r :: post ∧ r.name = token ∧ (∀ q ∈ pre, q.name ≠ token) ∧
        Packed m a pre b ∧ findEntry m token fuel a = some (some b)) ∨
      ((∀ q ∈ rs, q.name ≠ token) ∧
        findEntry m token fuel a = findEntry m token (fuel - rs.length) e) := by
  induction rs with
  | nil =>
      intro a e fuel h _
      obtain rfl : a = e := h
      exact Or.inr ⟨by simp, rfl⟩
  | cons r rs ih =>
      intro a e fuel h hfuel
      obtain ⟨fuel, rfl⟩ : ∃ f, fuel = f + 1 := ⟨fuel - 1, by simp at hfuel; omega⟩
      have hpos := r.eight_le_span
      by_cases hname : r.name = token
      · exact Or.inl ⟨[], r, rs, a, rfl, hname, by simp, rfl,
          findEntry_hit h.1 (by omega) hname fuel⟩
      · have hstep := findEntry_miss h.1 (by omega) htoken hname fuel
        rcases ih fuel h.2 (by simpa using hfuel) with
          ⟨pre, q, post, b, rfl, hq, hpre, hpacked, hfind⟩ | ⟨hnone, hfind⟩
        · refine Or.inl ⟨r :: pre, q, post, b, rfl, hq, ?_, ⟨h.1, hpacked⟩, by rw [hstep, hfind]⟩
          rintro x (_ | ⟨_, hx⟩)
          · exact hname
          · exact hpre x hx
        · refine Or.inr ⟨?_, by rw [hstep, hfind, List.length_cons, Nat.add_sub_add_right]⟩
          rintro x (_ | ⟨_, hx⟩)
          · exact hname
          · exact hnone x hx

theorem Listing.bound {a : Nat} {rs : List DirEntry} (h : Listing m limit a rs) :
    a + extent rs + 6 ≤ limit ∧ a + 8 * rs.length ≤ limit := by
  obtain ⟨init, last, e, l, rfl, hinit, hlast⟩ := h
  have hend := hinit.end_eq
  have hspan := hlast.span_le
  have hroom := hlast.room
  have hlen := length_le_extent (init ++ [last])
  simp only [extent_append, extent_cons, extent_nil] at hlen ⊢
  omega

/-- The search of a directory: the first entry of that name, or none. -/
theorem Listing.findEntry (htoken : 0 ∉ token) {a : Nat} {rs : List DirEntry}
    (h : Listing m limit a rs) {fuel : Nat} (hfuel : rs.length < fuel) :
    (∃ pre r post b, rs = pre ++ r :: post ∧ r.name = token ∧ (∀ q ∈ pre, q.name ≠ token) ∧
      Packed m a pre b ∧ findEntry m token fuel a = some (some b)) ∨
    ((∀ q ∈ rs, q.name ≠ token) ∧ findEntry m token fuel a = some none) := by
  obtain ⟨init, last, e, l, rfl, hinit, hlast⟩ := h
  have hpos := last.eight_le_span
  have hspan := hlast.span_le
  simp only [List.length_append, List.length_singleton] at hfuel
  rcases findEntry_packed htoken fuel hinit (by omega) with
    ⟨pre, r, post, b, rfl, hr, hpre, hpacked, hfind⟩ | ⟨hnone, hfind⟩
  · exact Or.inl ⟨pre, r, post ++ [last], b, by simp, hr, hpre, hpacked, hfind⟩
  obtain ⟨rest, hrest⟩ : ∃ f, fuel - init.length = f + 1 + 1 := ⟨fuel - init.length - 2, by omega⟩
  rw [hrest] at hfind
  by_cases hname : last.name = token
  · refine Or.inl ⟨init, last, [], e, rfl, hname, hnone, hinit, ?_⟩
    rw [hfind, findEntry_hit hlast.record (by omega) hname]
  · refine Or.inr ⟨?_, ?_⟩
    · intro q hq
      rcases List.mem_append.mp hq with hq | hq
      · exact hnone q hq
      · rw [List.mem_singleton.mp hq]
        exact hname
    · rw [hfind, findEntry_miss hlast.record (by omega) htoken hname, Chthon.findEntry,
        if_pos hlast.stop]

theorem lastEntry_packed {rs : List DirEntry} :
    ∀ {a e : Nat} {prev : Option Nat} (fuel : Nat), Packed m a rs e → e ≤ limit → rs.length ≤ fuel →
      ∃ prev', lastEntry m limit fuel a prev = lastEntry m limit (fuel - rs.length) e prev' := by
  induction rs with
  | nil =>
      intro a e prev fuel h _ _
      obtain rfl : a = e := h
      exact ⟨prev, rfl⟩
  | cons r rs ih =>
      intro a e prev fuel h he hfuel
      obtain ⟨fuel, rfl⟩ : ∃ f, fuel = f + 1 := ⟨fuel - 1, by simp at hfuel; omega⟩
      have hpos := r.eight_le_span
      have hend := h.2.end_eq
      obtain ⟨prev', hwalk⟩ : ∃ prev', lastEntry m limit fuel (a + r.span) (some a) =
          lastEntry m limit (fuel - rs.length) e prev' := ih fuel h.2 he (by simpa using hfuel)
      refine ⟨prev', ?_⟩
      rw [lastEntry, h.1.rec_eq, if_pos ⟨by omega, by omega⟩, hwalk, List.length_cons,
        Nat.add_sub_add_right]

/-- The walk of `create_file` ends on the last record. -/
theorem lastEntry_listing {a e l : Nat} {init : List DirEntry} {last : DirEntry}
    (hinit : Packed m a init e) (hlast : LastAt m limit e last l) {fuel : Nat}
    (hfuel : init.length + 1 < fuel) : lastEntry m limit fuel a none = some e := by
  have hroom := hlast.room
  have hspan := hlast.span_le
  have hpos := last.eight_le_span
  obtain ⟨prev', hwalk⟩ : ∃ prev', lastEntry m limit fuel a none =
      lastEntry m limit (fuel - init.length) e prev' :=
    lastEntry_packed fuel hinit (by omega) (by omega)
  obtain ⟨rest, hrest⟩ : ∃ f, fuel - init.length = f + 1 + 1 := ⟨fuel - init.length - 2, by omega⟩
  rw [hwalk, hrest, lastEntry, hlast.record.rec_eq, if_pos ⟨by omega, by omega⟩, lastEntry,
    hlast.stop, if_neg (by omega)]

end Walk

end Chthon
