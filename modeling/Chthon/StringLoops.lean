import Chthon.MountLookup
import Chthon.RamfsListing
import Chthon.StringFunctions

/-! The other loops of `string.c`, which the functions of the kernel are modelled without: comparisons,
copies and searches of texts in memory. Each does what the model has in its place on lists of bytes. -/

namespace Chthon

open ByteMemory PathText

namespace InMemory

/-- The loop of `memset`. -/
def memset (m : Memory) (c : UInt8) : Nat → Nat → Memory
  | _, 0 => m
  | p, n + 1 => memset (Function.update m p c) c (p + 1) n

/-- `strcmp`, with the difference of the bytes at which it stops. -/
def strcmp (m : Memory) : Nat → Nat → Nat → Option Int
  | 0, _, _ => none
  | fuel + 1, s1, s2 =>
      if m s1 ≠ 0 ∧ m s1 = m s2 then strcmp m fuel (s1 + 1) (s2 + 1)
      else some ((m s1).toNat - (m s2).toNat)

def strncmp (m : Memory) : Nat → Nat → Nat → Int
  | 0, _, _ => 0
  | n + 1, s1, s2 =>
      if m s1 ≠ 0 ∧ m s1 = m s2 then strncmp m n (s1 + 1) (s2 + 1)
      else (m s1).toNat - (m s2).toNat

/-- `while ((*d++ = *src++) != '\0');` -/
def strcpy : Nat → Memory → Nat → Nat → Option Memory
  | 0, _, _, _ => none
  | fuel + 1, m, d, src =>
      let c := m src
      let m := Function.update m d c
      if c = 0 then some m else strcpy fuel m (d + 1) (src + 1)

def strcat (fuel : Nat) (m : Memory) (dest src : Nat) : Option Memory :=
  (strlenEnd m fuel dest).bind fun d => strcpy fuel m d src

/-- Both loops of `strncpy`. -/
def strncpy (m : Memory) (dest src : Nat) : Nat → Memory
  | 0 => m
  | n + 1 =>
      if m src = 0 then memset m 0 dest (n + 1)
      else strncpy (Function.update m dest (m src)) (dest + 1) (src + 1) n

/-- `strncpy(dest, src, n); dest[n] = '\0';` -/
def strncpyField (m : Memory) (dest src n : Nat) : Memory :=
  Function.update (strncpy m dest src n) (dest + n) 0

/-- `strrchr` with the last occurrence so far. -/
def strrchr (m : Memory) (c : UInt8) : Nat → Nat → Option Nat → Option (Option Nat)
  | 0, _, _ => none
  | fuel + 1, str, last =>
      if m str = 0 then some (if c = 0 then some str else last)
      else strrchr m c fuel (str + 1) (if m str = c then some str else last)

/-- Whether the inner loop of `strstr` gets to the end of the needle. -/
def strstrHere (m : Memory) : Nat → Nat → Nat → Option Bool
  | 0, _, _ => none
  | fuel + 1, h, n =>
      if m h ≠ 0 ∧ m n ≠ 0 ∧ m h = m n then strstrHere m fuel (h + 1) (n + 1)
      else some (m n = 0)

def strstrLoop (m : Memory) (needle : Nat) : Nat → Nat → Option (Option Nat)
  | 0, _ => none
  | fuel + 1, haystack =>
      if m haystack = 0 then some none
      else
        match strstrHere m (fuel + 1) haystack needle with
        | none => none
        | some true => some (some haystack)
        | some false => strstrLoop m needle fuel (haystack + 1)

def strstr (m : Memory) (fuel haystack needle : Nat) : Option (Option Nat) :=
  if m needle = 0 then some (some haystack) else strstrLoop m needle fuel haystack

end InMemory

/-! Comparisons. -/

/-- A result that orders two texts by their bytes. -/
structure Compares (result : Int) (s t : Str) : Prop where
  zero : result = 0 ↔ s = t
  neg : result < 0 ↔ s < t

section Compare

variable {m : Memory} {a b fuel : Nat} {s t : Str} {c d : UInt8} {result : Int}

theorem Compares.cons (h : Compares result s t) (c : UInt8) : Compares result (c :: s) (c :: t) where
  zero := by rw [h.zero, List.cons_inj_right]
  neg := by
    rw [h.neg, List.cons_lt_cons_iff]
    simp

theorem Compares.differ (hne : c ≠ d) (s t : Str) :
    Compares ((c.toNat : Int) - d.toNat) (c :: s) (d :: t) where
  zero := by
    have htoNat : c.toNat ≠ d.toNat := fun h => hne (UInt8.toNat_inj.mp h)
    simp only [List.cons.injEq, hne, false_and, iff_false]
    omega
  neg := by
    rw [List.cons_lt_cons_iff, UInt8.lt_iff_toNat_lt]
    simp only [hne, false_and, or_false]
    omega

/-- The bytes at which a comparison is: it goes on, or its result is the order of the rest. -/
theorem comparison_cases (hs : CStringAt m a s) (ht : CStringAt m b t) :
    (m a ≠ 0 ∧ m a = m b) ∧ (∃ c s' t', s = c :: s' ∧ t = c :: t') ∨
      ¬(m a ≠ 0 ∧ m a = m b) ∧
        ∀ n, Compares ((m a).toNat - (m b).toNat) (s.take (n + 1)) (t.take (n + 1)) := by
  have hpos : ∀ {c : UInt8}, c ≠ 0 → 0 < c.toNat := fun hne =>
    Nat.pos_of_ne_zero fun h => hne (UInt8.toNat_inj.mp h)
  have hzero : ∀ {x : Nat}, m x = 0 → (m x).toNat = 0 := fun h => by rw [h]; rfl
  cases s with
  | nil =>
      have hnul : m a = 0 := hs.nul
      refine .inr ⟨fun h => h.1 hnul, fun n => ?_⟩
      rw [hzero hnul]
      cases t with
      | nil =>
          rw [hzero (show m b = 0 from ht.nul)]
          exact ⟨by simp, by simp⟩
      | cons d t =>
          obtain ⟨hd, hne⟩ := ht.head
          have := hpos hne
          rw [hd]
          exact ⟨iff_of_false (by omega) (by simp), iff_of_true (by omega) (by simp)⟩
  | cons c s =>
      obtain ⟨hc, hne⟩ := hs.head
      cases t with
      | nil =>
          have hnul : m b = 0 := ht.nul
          refine .inr ⟨fun h => h.1 (h.2.trans hnul), fun n => ?_⟩
          have := hpos hne
          rw [hc, hzero hnul]
          exact ⟨iff_of_false (by omega) (by simp), iff_of_false (by omega) (by simp)⟩
      | cons d t =>
          obtain ⟨hd, -⟩ := ht.head
          rw [hc, hd]
          by_cases hsame : c = d
          · exact .inl ⟨⟨hne, hsame⟩, c, s, t, rfl, hsame ▸ rfl⟩
          · exact .inr ⟨fun h => hsame h.2, fun n => .differ hsame _ _⟩

theorem strncmp_compares (n : Nat) : ∀ {a b : Nat} {s t : Str}, CStringAt m a s → CStringAt m b t →
    Compares (InMemory.strncmp m n a b) (s.take n) (t.take n) := by
  induction n with
  | zero =>
      intro a b s t _ _
      exact ⟨by simp [InMemory.strncmp], by simp [InMemory.strncmp]⟩
  | succ n ih =>
      intro a b s t hs ht
      rw [InMemory.strncmp]
      rcases comparison_cases hs ht with ⟨hmore, c, s, t, rfl, rfl⟩ | ⟨hend, hcompares⟩
      · rw [if_pos hmore]
        exact (ih hs.tail ht.tail).cons c
      · rw [if_neg hend]
        exact hcompares n

/-- The same on texts. -/
theorem strncmp_texts (n : Nat) : ∀ {a b : Nat} {s t : Str}, CStringAt m a s → CStringAt m b t →
    InMemory.strncmp m n a b = strncmp s t n := by
  induction n with
  | zero =>
      intro a b s t _ _
      cases s <;> cases t <;> rfl
  | succ n ih =>
      intro a b s t hs ht
      rw [InMemory.strncmp]
      cases s with
      | nil =>
          have hnul : m a = 0 := hs.nul
          rw [if_neg (fun h => h.1 hnul), hnul]
          cases t with
          | nil => rw [show m b = 0 from ht.nul]; rfl
          | cons d t =>
              rw [ht.head.1, strncmp]
              exact Int.zero_sub _
      | cons c s =>
          obtain ⟨hc, hne⟩ := hs.head
          rw [hc]
          cases t with
          | nil =>
              have hnul : m b = 0 := ht.nul
              rw [hnul, if_neg (fun h => hne h.2), strncmp]
              exact Int.sub_zero _
          | cons d t =>
              rw [ht.head.1, strncmp]
              by_cases hsame : c = d
              · rw [if_pos ⟨hne, hsame⟩, if_pos hsame]
                exact ih hs.tail ht.tail
              · rw [if_neg (fun h => hsame h.2), if_neg hsame]

theorem strcmp_compares (hs : CStringAt m a s) (ht : CStringAt m b t) (hfuel : s.length < fuel) :
    ∃ result, InMemory.strcmp m fuel a b = some result ∧ Compares result s t := by
  induction fuel generalizing a b s t with
  | zero => exact absurd hfuel (Nat.not_lt_zero _)
  | succ fuel ih =>
      rw [InMemory.strcmp]
      rcases comparison_cases hs ht with ⟨hmore, c, s, t, rfl, rfl⟩ | ⟨hend, hcompares⟩
      · rw [if_pos hmore]
        rw [List.length_cons] at hfuel
        obtain ⟨result, hcmp, hresult⟩ := ih hs.tail ht.tail (by omega)
        exact ⟨result, hcmp, hresult.cons c⟩
      · rw [if_neg hend]
        have hall := hcompares (s.length + t.length)
        rw [List.take_of_length_le (by omega), List.take_of_length_le (by omega)] at hall
        exact ⟨_, rfl, hall⟩

end Compare

/-! Copies. -/

section Copies

variable {m : Memory} {d src fuel : Nat} {s w : Str}

/-- A byte before a text, or behind it, is written. -/
theorem CStringAt.update (h : CStringAt m src s) {x : Nat} (hx : x < src ∨ src + s.length < x)
    (c : UInt8) : CStringAt (Function.update m x c) src s :=
  h.congr fun k hk => Function.update_of_ne (by omega) _ _

/-- The copy comes before the bytes that it has yet to read, or behind them all. -/
theorem strcpy_eq (h : CStringAt m src s) (hfuel : s.length < fuel)
    (happart : d ≤ src ∨ src + s.length < d) :
    InMemory.strcpy fuel m d src = some (store m d (s ++ [0])) := by
  induction s generalizing m d src fuel with
  | nil =>
      obtain ⟨fuel, rfl⟩ := Nat.exists_eq_add_of_lt hfuel
      have hnul : m src = 0 := h.nul
      rw [InMemory.strcpy, hnul, if_pos rfl, List.nil_append, ← store_cons, store_nil]
  | cons c s ih =>
      obtain ⟨fuel, rfl⟩ := Nat.exists_eq_add_of_lt hfuel
      obtain ⟨hc, hne⟩ := h.head
      rw [List.length_cons] at happart
      rw [InMemory.strcpy, hc, if_neg hne,
        ih (h.tail.update (by omega) c) (by rw [List.length_cons]; omega) (by omega),
        List.cons_append, store_cons]

theorem strlenEnd_eq (h : CStringAt m src s) (hfuel : s.length < fuel) :
    InMemory.strlenEnd m fuel src = some (src + s.length) := by
  induction s generalizing src fuel with
  | nil =>
      obtain ⟨fuel, rfl⟩ := Nat.exists_eq_add_of_lt hfuel
      exact if_pos h.nul
  | cons c s ih =>
      obtain ⟨fuel, rfl⟩ := Nat.exists_eq_add_of_lt hfuel
      obtain ⟨hc, hne⟩ := h.head
      rw [InMemory.strlenEnd, hc, if_neg hne, ih h.tail (by rw [List.length_cons]; omega),
        List.length_cons, Nat.add_assoc, Nat.add_comm 1]

/-- The text is appended to the one at `d`. -/
theorem strcat_eq (hdest : CStringAt m d w) (h : CStringAt m src s)
    (hfuel : w.length + s.length < fuel)
    (happart : d + w.length ≤ src ∨ src + s.length < d + w.length) :
    InMemory.strcat fuel m d src = some (store m (d + w.length) (s ++ [0])) := by
  rw [InMemory.strcat, strlenEnd_eq hdest (by omega), Option.bind_some]
  exact strcpy_eq h (by omega) happart

/-- Text that has been stored with its NUL. -/
theorem cstringAt_store (m : Memory) (a : Nat) (hs : 0 ∉ s) : CStringAt (store m a (s ++ [0])) a s where
  nul_free := hs
  chars k c hk := by
    obtain ⟨hlt, rfl⟩ := List.getElem?_eq_some_iff.mp hk
    rw [store_at _ _ _ k (by rw [List.length_append]; omega), List.getElem_append_left hlt]
  nul := by
    rw [store_at _ _ _ _ (by simp), List.getElem_append_right le_rfl]
    simp

/-- A text that a destination of `size` bytes does not reach. -/
structure Piece (m : Memory) (d size : Nat) (src : Nat) (s : Str) : Prop where
  text : CStringAt m src s
  apart : src + s.length < d ∨ d + size ≤ src

theorem Piece.store {size : Nat} (h : Piece m d size src s) {a : Nat} {bs : List UInt8} (ha : d ≤ a)
    (hbs : a + bs.length ≤ d + size) : Piece (store m a bs) d size src s where
  text := h.text.congr fun k hk => store_outside _ _ (by have := h.apart; omega)
  apart := h.apart

/-- Successive calls of `strcat` with one destination. -/
def InMemory.strcats (fuel : Nat) (dest : Nat) : List Nat → Memory → Option Memory
  | [], m => some m
  | src :: rest, m => (strcat fuel m dest src).bind (strcats fuel dest rest)

/-- A text grows behind its end. -/
theorem CStringAt.append (h : CStringAt m d w) (hs : 0 ∉ s) :
    CStringAt (store m (d + w.length) (s ++ [0])) d (w ++ s) := by
  have hnew := cstringAt_store m (d + w.length) hs
  refine ⟨fun hmem => ?_, fun k c hk => ?_, ?_⟩
  · rcases List.mem_append.mp hmem with hw | hnul
    · exact h.nul_free hw
    · exact hs hnul
  · by_cases hlt : k < w.length
    · rw [List.getElem?_append_left hlt] at hk
      rw [store_of_lt _ _ (by omega)]
      exact h.chars k c hk
    · rw [List.getElem?_append_right (Nat.not_lt.mp hlt)] at hk
      have hchar := hnew.chars _ c hk
      rwa [show d + w.length + (k - w.length) = d + k by omega] at hchar
  · have hnul := hnew.nul
    rwa [Nat.add_assoc, ← List.length_append] at hnul

theorem strcats_eq {size : Nat} (pieces : List (Nat × Str)) : ∀ {m : Memory} {w : Str},
    CStringAt m d w → (∀ p ∈ pieces, Piece m d size p.1 p.2) →
    w.length + (pieces.flatMap Prod.snd).length < size → size ≤ fuel →
    InMemory.strcats fuel d (pieces.map Prod.fst) m =
      some (store m (d + w.length) (pieces.flatMap Prod.snd ++ [0])) := by
  induction pieces with
  | nil =>
      intro m w hw _ _ _
      rw [List.map_nil, InMemory.strcats, List.flatMap_nil, List.nil_append, ← store_cons, store_nil,
        ← hw.nul, Function.update_eq_self]
  | cons p pieces ih =>
      intro m w hw hpieces hroom hfuel
      obtain ⟨src, s⟩ := p
      rw [List.flatMap_cons, List.length_append] at hroom
      dsimp only at hroom
      have hpiece : Piece m d size src s := hpieces (src, s) List.mem_cons_self
      have hs := hpiece.text.nul_free
      have hapart := hpiece.apart
      have hcat : InMemory.strcat fuel m d src = some (store m (d + w.length) (s ++ [0])) :=
        strcat_eq hw hpiece.text (by omega) (by omega)
      have hrest := ih (hw.append hs) (fun p hp => (hpieces p (List.mem_cons_of_mem _ hp)).store
        (by omega) (by rw [List.length_append, List.length_singleton]; omega))
        (by rw [List.length_append]; omega) hfuel
      rw [List.map_cons, InMemory.strcats, hcat, Option.bind_some, hrest, List.flatMap_cons]
      congr 1
      -- the NUL behind the text so far is written over
      rw [List.length_append, ← Nat.add_assoc, ← store_append m (d + w.length) s [0],
        store_over _ _ (by simp), store_append, List.append_assoc]

/-- The loop of `memset` fills its range. -/
theorem memset_eq (c : UInt8) (n : Nat) : ∀ (m : Memory) (p : Nat),
    InMemory.memset m c p n = store m p (List.replicate n c) := by
  induction n with
  | zero =>
      intro m p
      rw [InMemory.memset, List.replicate_zero, store_nil]
  | succ n ih =>
      intro m p
      rw [InMemory.memset, ih, store_cons, List.replicate_succ]

/-- A field of `n` bytes gets what fits of the text, and is filled up with zeros. -/
theorem strncpy_eq (n : Nat) : ∀ {m : Memory} {d src : Nat} {s : Str}, CStringAt m src s →
    (d ≤ src ∨ src + s.length < d) →
    InMemory.strncpy m d src n = store m d (s.take n ++ List.replicate (n - s.length) 0) := by
  induction n with
  | zero =>
      intro m d src s _ _
      rw [InMemory.strncpy, List.take_zero, Nat.zero_sub, List.replicate_zero, List.nil_append,
        store_nil]
  | succ n ih =>
      intro m d src s h happart
      cases s with
      | nil =>
          rw [InMemory.strncpy, if_pos (show m src = 0 from h.nul), memset_eq]
          rfl
      | cons c s =>
          obtain ⟨hc, hne⟩ := h.head
          rw [List.length_cons] at happart
          rw [InMemory.strncpy, hc, if_neg hne, ih (h.tail.update (by omega) c) (by omega), store_cons,
            List.take_succ_cons, List.length_cons, Nat.add_sub_add_right, List.cons_append]

end Copies

/-! Searches. -/

section Searches

variable {m : Memory} {a b fuel : Nat} {s t : Str}

theorem strstrHere_eq (hs : CStringAt m a s) (ht : CStringAt m b t) (hfuel : s.length < fuel) :
    InMemory.strstrHere m fuel a b = some (t.isPrefixOf s) := by
  induction s generalizing a b t fuel with
  | nil =>
      obtain ⟨fuel, rfl⟩ := Nat.exists_eq_add_of_lt hfuel
      rw [InMemory.strstrHere, if_neg (fun h => h.1 hs.nul)]
      cases t with
      | nil => rw [show m b = 0 from ht.nul]; rfl
      | cons d t =>
          obtain ⟨hd, hne⟩ := ht.head
          rw [hd, decide_eq_false hne]
          rfl
  | cons c s ih =>
      obtain ⟨fuel, rfl⟩ := Nat.exists_eq_add_of_lt hfuel
      obtain ⟨hc, hne⟩ := hs.head
      rw [InMemory.strstrHere]
      cases t with
      | nil =>
          have hnul : m b = 0 := ht.nul
          rw [if_neg (fun h => h.2.1 hnul), hnul]
          rfl
      | cons d t =>
          obtain ⟨hd, hne'⟩ := ht.head
          rw [hc, hd, List.isPrefixOf]
          by_cases hsame : c = d
          · subst hsame
            rw [if_pos ⟨hne, hne, rfl⟩, ih hs.tail ht.tail (by rw [List.length_cons]; omega),
              beq_self_eq_true, Bool.true_and]
          · rw [if_neg (fun h => hsame h.2.2), decide_eq_false hne', beq_false_of_ne (Ne.symm hsame)]
            rfl

/-- Where a search for a text ends up. -/
structure FirstAt (a : Nat) (s t : Str) (result : Option Nat) : Prop where
  absent : result = none → ∀ k, ¬t <+: s.drop k
  found : ∀ p, result = some p → ∃ k ≤ s.length, p = a + k ∧ t <+: s.drop k ∧
    ∀ j < k, ¬t <+: s.drop j

theorem strstrLoop_eq (hs : CStringAt m a s) (ht : CStringAt m b t) (hne : t ≠ [])
    (hfuel : s.length < fuel) :
    ∃ result, InMemory.strstrLoop m b fuel a = some result ∧ FirstAt a s t result := by
  induction s generalizing a fuel with
  | nil =>
      obtain ⟨fuel, rfl⟩ := Nat.exists_eq_add_of_lt hfuel
      rw [InMemory.strstrLoop, if_pos (show m a = 0 from hs.nul)]
      refine ⟨none, rfl, fun _ k hprefix => hne ?_, nofun⟩
      rw [List.drop_nil] at hprefix
      exact List.prefix_nil.mp hprefix
  | cons c s ih =>
      obtain ⟨fuel, rfl⟩ := Nat.exists_eq_add_of_lt hfuel
      obtain ⟨hc, hchar⟩ := hs.head
      rw [InMemory.strstrLoop, hc, if_neg hchar, strstrHere_eq hs ht (by omega)]
      cases hhere : t.isPrefixOf (c :: s) with
      | true =>
          refine ⟨some a, rfl, nofun, fun p hp => ⟨0, Nat.zero_le _, (Option.some.inj hp).symm, ?_,
            fun _ hj => absurd hj (Nat.not_lt_zero _)⟩⟩
          exact List.isPrefixOf_iff_prefix.mp hhere
      | false =>
          have hnot : ¬t <+: c :: s := fun h => by
            rw [List.isPrefixOf_iff_prefix.mpr h] at hhere
            cases hhere
          have hrest : s.length < (c :: s).length + fuel := by
            rw [List.length_cons]
            omega
          obtain ⟨result, hloop, hfirst⟩ := ih hs.tail hrest
          refine ⟨result, hloop, fun hnone k => ?_, fun p hp => ?_⟩
          · cases k with
            | zero => exact hnot
            | succ k => exact hfirst.absent hnone k
          · obtain ⟨k, hk, rfl, hat, hbefore⟩ := hfirst.found p hp
            refine ⟨k + 1, by rw [List.length_cons]; omega, by omega, hat, fun j hj => ?_⟩
            cases j with
            | zero => exact hnot
            | succ j => exact hbefore j (by omega)

/-- The loop on the text, at the addresses it has. -/
theorem strrchr_texts {c : UInt8} (hc : c ≠ 0) (hs : CStringAt m a s) (hfuel : s.length < fuel)
    (last : Option Nat) :
    InMemory.strrchr m c fuel a last = some (strrchrFrom c s a last) := by
  induction s generalizing a fuel last with
  | nil =>
      obtain ⟨fuel, rfl⟩ := Nat.exists_eq_add_of_lt hfuel
      rw [InMemory.strrchr, if_pos (show m a = 0 from hs.nul), if_neg hc]
      rfl
  | cons d s ih =>
      obtain ⟨fuel, rfl⟩ := Nat.exists_eq_add_of_lt hfuel
      obtain ⟨hd, hne⟩ := hs.head
      rw [InMemory.strrchr, hd, if_neg hne, strrchrFrom]
      apply ih hs.tail
      rw [List.length_cons]
      omega

end Searches

/-! What the rest of the kernel relies on. -/

section Functions

variable {m : Memory} {a b d fuel size src : Nat} {s t : Str}

/-- `strcmp` and `strncmp` order texts by their bytes; they are what the model computes on texts, and
are zero where it compares a text with the bytes in memory or asks for a prefix. -/
theorem comparisons_order (hs : CStringAt m a s) (ht : CStringAt m b t) (hfuel : s.length < fuel)
    (n : Nat) :
    (∃ result, InMemory.strcmp m fuel a b = some result ∧ Compares result s t ∧
        (result = 0 ↔ strEq m a t = true)) ∧
      InMemory.strncmp m n a b = strncmp s t n ∧ Compares (strncmp s t n) (s.take n) (t.take n) ∧
      (InMemory.strncmp m t.length a b = 0 ↔ t.isPrefixOf s = true) := by
  obtain ⟨result, hcmp, hresult⟩ := strcmp_compares hs ht hfuel
  have htexts := strncmp_texts n hs ht
  refine ⟨⟨result, hcmp, hresult, ?_⟩, htexts, htexts ▸ strncmp_compares n hs ht, ?_⟩
  · have hbytes : ∀ k (hk : k < s.length), m (a + k) = s[k] := fun k hk =>
      hs.chars k _ (List.getElem?_eq_getElem hk)
    rw [hresult.zero, strEq_store m s t hs.nul_free ht.nul_free hbytes hs.nul, eq_comm]
  · rw [(strncmp_compares t.length hs ht).zero, List.take_length, List.isPrefixOf_iff_prefix,
      List.prefix_iff_eq_take, eq_comm]

/-- A path put together by a `strcpy` and any number of `strcat`s is the text of its pieces one after
the other, if they all fit and the buffer holds none of them. -/
theorem texts_concatenated (first : Nat × Str) (pieces : List (Nat × Str))
    (hpieces : ∀ p ∈ first :: pieces, Piece m d size p.1 p.2)
    (hroom : ((first :: pieces).flatMap Prod.snd).length < size) (hfuel : size ≤ fuel) :
    (InMemory.strcpy fuel m d first.1).bind (InMemory.strcats fuel d (pieces.map Prod.fst)) =
      some (store m d ((first :: pieces).flatMap Prod.snd ++ [0])) := by
  obtain ⟨src, s⟩ := first
  rw [List.flatMap_cons, List.length_append] at hroom
  dsimp only at hroom
  have hpiece : Piece m d size src s := hpieces (src, s) List.mem_cons_self
  have hapart := hpiece.apart
  have hcpy : InMemory.strcpy fuel m d src = some (store m d (s ++ [0])) :=
    strcpy_eq hpiece.text (by omega) (by omega)
  have hlater : ∀ p ∈ pieces, Piece (store m d (s ++ [0])) d size p.1 p.2 := fun p hp =>
    (hpieces p (List.mem_cons_of_mem _ hp)).store le_rfl
      (by rw [List.length_append, List.length_singleton]; omega)
  have hrest : InMemory.strcats fuel d (pieces.map Prod.fst) (store m d (s ++ [0])) =
      some (store (store m d (s ++ [0])) (d + s.length) (pieces.flatMap Prod.snd ++ [0])) :=
    strcats_eq pieces (cstringAt_store m d hpiece.text.nul_free) hlater hroom hfuel
  rw [hcpy, Option.bind_some, hrest, ← store_append m d s [0], store_over _ _ (by simp), store_append,
    List.flatMap_cons, List.append_assoc]

/-- A field that `strncpy` fills but for its last byte, which is set to NUL, holds as much of the text as
fits, then zeros, and no other byte changes. -/
theorem field_filled (h : CStringAt m src s) (happart : d ≤ src ∨ src + s.length < d) (n : Nat) :
    CStringAt (InMemory.strncpyField m d src n) d (s.take n) ∧
      (∀ k, s.length ≤ k → k ≤ n → InMemory.strncpyField m d src n (d + k) = 0) ∧
      ∀ x, x < d ∨ d + n < x → InMemory.strncpyField m d src n x = m x := by
  have hlength : (s.take n ++ List.replicate (n - s.length) 0).length = n := by
    rw [List.length_append, List.length_take, List.length_replicate]
    omega
  have hend : InMemory.strncpyField m d src n (d + n) = 0 := Function.update_self _ _ _
  have hbefore : ∀ {x : Nat}, x ≠ d + n → InMemory.strncpyField m d src n x =
      store m d (s.take n ++ List.replicate (n - s.length) 0) x := by
    intro x hx
    rw [InMemory.strncpyField, Function.update_of_ne hx, strncpy_eq n h happart]
  have hzeros : ∀ k, s.length ≤ k → k ≤ n → InMemory.strncpyField m d src n (d + k) = 0 := by
    intro k hk hn
    rcases Nat.lt_or_eq_of_le hn with hlt | rfl
    · rw [hbefore (by omega), store_at _ _ _ k (by omega), List.getElem_append_right
        (by rw [List.length_take]; omega), List.getElem_replicate]
    · exact hend
  refine ⟨⟨fun hmem => h.nul_free (List.mem_of_mem_take hmem), fun k c hk => ?_, ?_⟩, hzeros,
    fun x hx => ?_⟩
  · obtain ⟨hlt, rfl⟩ := List.getElem?_eq_some_iff.mp hk
    have hlt' := hlt
    rw [List.length_take] at hlt'
    rw [hbefore (by omega), store_at _ _ _ k (by omega), List.getElem_append_left hlt]
  · rw [List.length_take]
    rcases Nat.le_total n s.length with hn | hn
    · rw [Nat.min_eq_left hn]
      exact hend
    · rw [Nat.min_eq_right hn]
      exact hzeros _ le_rfl hn
  · rw [hbefore (by omega), store_outside _ _ (by omega)]

/-- `strstr` finds the first place where the needle stands, and `strrchr` the last one of a byte, as on
the text. -/
theorem searches_exact (hs : CStringAt m a s) (ht : CStringAt m b t) (hfuel : s.length < fuel)
    (c : UInt8) (hc : c ≠ 0) :
    (∃ result, InMemory.strstr m fuel a b = some result ∧ FirstAt a s t result) ∧
      InMemory.strrchr m c fuel a none = some ((strrchr s c).map (a + ·)) ∧
      (c ∉ s → strrchr s c = none) ∧
      ∀ pre post, s = pre ++ c :: post → c ∉ post → strrchr s c = some pre.length := by
  refine ⟨?_, ?_, fun habsent => ?_, fun pre post h hpost => ?_⟩
  · rw [InMemory.strstr]
    cases t with
    | nil =>
        rw [if_pos (show m b = 0 from ht.nul)]
        exact ⟨some a, rfl, nofun, fun p hp => ⟨0, Nat.zero_le _, (Option.some.inj hp).symm,
          List.nil_prefix, fun _ hj => absurd hj (Nat.not_lt_zero _)⟩⟩
    | cons d t =>
        obtain ⟨hd, hne⟩ := ht.head
        rw [hd, if_neg hne]
        exact strstrLoop_eq hs ht (List.cons_ne_nil d t) hfuel
  · rw [strrchr_texts hc hs hfuel, strrchrFrom_eq, Option.or_none, strrchr_eq, Option.map_map]
    rfl
  · rw [strrchr_eq, (splitLast_eq_none c).mpr habsent, Option.map_none]
  · rw [strrchr_eq, h, splitLast_append c hpost, Option.map_some]

end Functions

/-! Two texts in a memory, at 100 and 200, and a buffer at 300. -/

def twoTexts : Memory := store (store (fun _ => 0) 100 (ascii "/tmp/a" ++ [0])) 200 (ascii "a" ++ [0])

theorem twoTexts_second : CStringAt twoTexts 200 (ascii "a") := cstringAt_store _ _ (by decide)

theorem twoTexts_first : CStringAt twoTexts 100 (ascii "/tmp/a") :=
  (cstringAt_store _ 100 (by decide)).congr fun k hk => store_of_lt _ _ (by
    have hlength : (ascii "/tmp/a").length = 6 := by decide
    omega)

theorem comparisons_order_tmp : ∃ result, InMemory.strcmp twoTexts 7 100 200 = some result ∧
    result < 0 ∧ ascii "/tmp/a" < ascii "a" := by
  obtain ⟨⟨result, hcmp, hresult, -⟩, -⟩ :=
    comparisons_order twoTexts_first twoTexts_second (show (ascii "/tmp/a").length < 7 by decide) 0
  have hless : ascii "/tmp/a" < ascii "a" := by decide
  exact ⟨result, hcmp, hresult.neg.mpr hless, hless⟩

theorem texts_concatenated_tmp : (InMemory.strcpy 20 twoTexts 300 100).bind
      (InMemory.strcats 20 300 [200, 200]) =
    some (store twoTexts 300 (ascii "/tmp/aaa" ++ [0])) := by
  have hfirst : Piece twoTexts 300 20 100 (ascii "/tmp/a") := ⟨twoTexts_first, by decide⟩
  have hsecond : Piece twoTexts 300 20 200 (ascii "a") := ⟨twoTexts_second, by decide⟩
  have hpieces : ∀ p ∈ [(100, ascii "/tmp/a"), (200, ascii "a"), (200, ascii "a")],
      Piece twoTexts 300 20 p.1 p.2 := by simp [hfirst, hsecond]
  exact texts_concatenated (100, ascii "/tmp/a") [(200, ascii "a"), (200, ascii "a")] hpieces
    (by decide) le_rfl

theorem field_filled_tmp : CStringAt (InMemory.strncpyField twoTexts 300 100 4) 300 (ascii "/tmp") :=
  (field_filled twoTexts_first (by decide) 4).1

theorem searches_exact_tmp :
    (∃ result, InMemory.strstr twoTexts 7 100 200 = some result ∧
      FirstAt 100 (ascii "/tmp/a") (ascii "a") result) ∧
      InMemory.strrchr twoTexts slash 7 100 none = some (some 104) := by
  obtain ⟨hfirst, hlast, -, hfound⟩ := searches_exact twoTexts_first twoTexts_second
    (show (ascii "/tmp/a").length < 7 by decide) slash (by decide)
  rw [hfound (ascii "/tmp") (ascii "a") (by decide) (by decide)] at hlast
  exact ⟨hfirst, hlast⟩

end Chthon
