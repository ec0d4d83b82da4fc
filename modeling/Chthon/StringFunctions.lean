import Chthon.CString
import Chthon.Lib.Fields

/-! The functions of `string.c` that work in memory: `strtok_r` with the walks it is made of, and
`memmove` with its two loops. A `char *` is an address. A walk is given fuel, and `none` is a walk
that uses it up. A set of delimiters is only read, and taken as its text. -/

namespace Chthon

open ByteMemory Fields

namespace InMemory

/-- The loop of `strspn`: the count when it stops. -/
def strspn (m : Memory) (accept : Str) : Nat → Nat → Nat → Option Nat
  | 0, _, _ => none
  | fuel + 1, str, count =>
      if m str = 0 then some count
      else if accept.contains (m str) then strspn m accept fuel (str + 1) (count + 1)
      else some count

/-- `strpbrk`; NULL is `some none`. -/
def strpbrk (m : Memory) (accept : Str) : Nat → Nat → Option (Option Nat)
  | 0, _ => none
  | fuel + 1, str =>
      if m str = 0 then some none
      else if accept.contains (m str) then some (some str)
      else strpbrk m accept fuel (str + 1)

/-- The loop of `strlen`: where it finds the NUL. -/
def strlenEnd (m : Memory) : Nat → Nat → Option Nat
  | 0, _ => none
  | fuel + 1, p => if m p = 0 then some p else strlenEnd m fuel (p + 1)

def strlen (m : Memory) (fuel s : Nat) : Option Nat := (strlenEnd m fuel s).map (· - s)

/-- `strtok_r` with its first argument, which may be NULL, and the saved pointer: the token, if any,
and the saved pointer and the memory it leaves. -/
def strtokR (fuel : Nat) (m : Memory) (delim : Str) (str : Option Nat) (saveptr : Nat) :
    Option (Option Nat × Nat × Memory) :=
  let str := str.getD saveptr
  (strspn m delim fuel str 0).bind fun count =>
    let str := str + count
    if m str = 0 then some (none, str, m)
    else
      (strpbrk m delim fuel str).bind fun
        | none => (strlen m fuel str).map fun len => (some str, str + len, m)
        | some stop => some (some str, stop + 1, Function.update m stop 0)

/-- Successive calls, the first one on `str` and the others on NULL. -/
def strtokCalls (fuel : Nat) (delim : Str) :
    Nat → Option Nat → Nat → Memory → Option (List (Option Nat) × Nat × Memory)
  | 0, _, saveptr, m => some ([], saveptr, m)
  | n + 1, str, saveptr, m =>
      (strtokR fuel m delim str saveptr).bind fun (token, saveptr, m) =>
        (strtokCalls fuel delim n none saveptr m).map fun (tokens, saveptr, m) =>
          (token :: tokens, saveptr, m)

/-- `while (n--) *d++ = *s++;` -/
def copyUp (m : Memory) (d s : Nat) : Nat → Memory
  | 0 => m
  | n + 1 => copyUp (Function.update m d (m s)) (d + 1) (s + 1) n

/-- `while (n--) *--d = *--s;` -/
def copyDown (m : Memory) (d s : Nat) : Nat → Memory
  | 0 => m
  | n + 1 => copyDown (Function.update m (d - 1) (m (s - 1))) (d - 1) (s - 1) n

/-- The pointer it returns and the memory it leaves. -/
def memmove (m : Memory) (dest src n : Nat) : Nat × Memory :=
  (dest,
    if dest > src ∧ dest < src + n then copyDown m (dest + n) (src + n) n
    else copyUp m dest src n)

end InMemory

/-- The bytes from `a` on are the text and its NUL. -/
structure CStringAt (m : Memory) (a : Nat) (s : Str) : Prop where
  nul_free : 0 ∉ s
  chars : ∀ k c, s[k]? = some c → m (a + k) = c
  nul : m (a + s.length) = 0

section Walks

variable {m m' : Memory} {a fuel : Nat} {s : Str} {delim : Str}

theorem CStringAt.head {c : UInt8} (h : CStringAt m a (c :: s)) : m a = c ∧ c ≠ 0 := by
  refine ⟨h.chars 0 c rfl, ?_⟩
  rintro rfl
  exact h.nul_free List.mem_cons_self

theorem CStringAt.tail {c : UInt8} (h : CStringAt m a (c :: s)) : CStringAt m (a + 1) s where
  nul_free hmem := h.nul_free (List.mem_cons_of_mem _ hmem)
  chars k d hd := by
    rw [Nat.add_assoc, Nat.add_comm 1]
    exact h.chars (k + 1) d hd
  nul := by
    rw [Nat.add_assoc, Nat.add_comm 1]
    exact h.nul

theorem CStringAt.drop (h : CStringAt m a s) {n : Nat} (hn : n ≤ s.length) :
    CStringAt m (a + n) (s.drop n) := by
  induction n generalizing a s with
  | zero => exact h
  | succ n ih =>
      cases s with
      | nil => exact absurd hn (by simp)
      | cons c s =>
          have hrest := ih h.tail (by simpa using hn)
          rwa [Nat.add_assoc, Nat.add_comm 1] at hrest

theorem CStringAt.congr (h : CStringAt m a s) (hm : ∀ k ≤ s.length, m' (a + k) = m (a + k)) :
    CStringAt m' a s where
  nul_free := h.nul_free
  chars k c hc := (hm k (List.getElem?_eq_some_iff.mp hc).1.le).trans (h.chars k c hc)
  nul := (hm _ le_rfl).trans h.nul

/-- A string is cut by a NUL in the middle of it. -/
theorem CStringAt.cut {t : Str} (h : CStringAt m a (s ++ t)) :
    CStringAt (Function.update m (a + s.length) 0) a s where
  nul_free hmem := h.nul_free (List.mem_append_left _ hmem)
  chars k c hc := by
    have hk := (List.getElem?_eq_some_iff.mp hc).1
    rw [Function.update_of_ne (by omega)]
    exact h.chars k c (by rw [List.getElem?_append_left hk, hc])
  nul := Function.update_self ..

theorem strspn_eq (h : CStringAt m a s) (hfuel : s.length < fuel) (count : Nat) :
    InMemory.strspn m delim fuel a count = some (count + (s.takeWhile delim.contains).length) := by
  induction s generalizing a fuel count with
  | nil =>
      obtain ⟨fuel, rfl⟩ := Nat.exists_eq_add_of_lt hfuel
      have hnul : m a = 0 := h.nul
      rw [InMemory.strspn, if_pos hnul]
      rfl
  | cons c s ih =>
      obtain ⟨fuel, rfl⟩ := Nat.exists_eq_add_of_lt hfuel
      obtain ⟨hc, hne⟩ := h.head
      rw [InMemory.strspn, hc, if_neg hne, List.takeWhile_cons]
      split_ifs with hdelim
      · rw [ih h.tail (by rw [List.length_cons]; omega), List.length_cons]
        congr 1
        omega
      · rfl

theorem strpbrk_eq (h : CStringAt m a s) (hfuel : s.length < fuel) :
    InMemory.strpbrk m delim fuel a =
      some (if s.dropWhile (!delim.contains ·) = [] then none
        else some (a + (s.takeWhile (!delim.contains ·)).length)) := by
  induction s generalizing a fuel with
  | nil =>
      obtain ⟨fuel, rfl⟩ := Nat.exists_eq_add_of_lt hfuel
      have hnul : m a = 0 := h.nul
      rw [InMemory.strpbrk, if_pos hnul]
      rfl
  | cons c s ih =>
      obtain ⟨fuel, rfl⟩ := Nat.exists_eq_add_of_lt hfuel
      obtain ⟨hc, hne⟩ := h.head
      rw [InMemory.strpbrk, hc, if_neg hne, List.takeWhile_cons, List.dropWhile_cons]
      by_cases hdelim : delim.contains c = true
      · rw [if_pos hdelim]
        simp only [hdelim, Bool.not_true, Bool.false_eq_true, if_false, List.cons_ne_nil,
          List.length_nil, Nat.add_zero]
      · rw [if_neg hdelim, ih h.tail (by rw [List.length_cons]; omega)]
        simp only [hdelim, Bool.not_false, if_true, List.length_cons, Nat.add_assoc, Nat.add_comm 1]

theorem strlen_eq (h : CStringAt m a s) (hfuel : s.length < fuel) :
    InMemory.strlen m fuel a = some s.length := by
  have hend : InMemory.strlenEnd m fuel a = some (a + s.length) := by
    induction s generalizing a fuel with
    | nil =>
        obtain ⟨fuel, rfl⟩ := Nat.exists_eq_add_of_lt hfuel
        exact if_pos h.nul
    | cons c s ih =>
        obtain ⟨fuel, rfl⟩ := Nat.exists_eq_add_of_lt hfuel
        obtain ⟨hc, hne⟩ := h.head
        rw [InMemory.strlenEnd, hc, if_neg hne, ih h.tail (by rw [List.length_cons]; omega),
          List.length_cons, Nat.add_assoc, Nat.add_comm 1]
  rw [InMemory.strlen, hend, Option.map_some, Nat.add_sub_cancel_left]

end Walks

/-! One call, against the same call on texts. -/

section Call

variable {m : Memory} {a fuel saveptr : Nat} {t token rest : Str} {delim : Str} {str : Option Nat}

theorem strtokR_eq_none : strtokR delim t = none ↔ t.dropWhile delim.contains = [] := by
  rw [strtokR]
  split
  · rename_i hnil
    exact iff_of_true rfl hnil
  · rename_i hne
    exact iff_of_false (by simp) hne

/-- The parts into which a call that finds a token cuts the text. -/
theorem strtokR_eq_some (h : strtokR delim t = some (token, rest)) :
    t.dropWhile delim.contains ≠ [] ∧
      token = (t.dropWhile delim.contains).takeWhile (!delim.contains ·) ∧
      rest = ((t.dropWhile delim.contains).dropWhile (!delim.contains ·)).tail := by
  rw [strtokR] at h
  split at h
  · cases h
  · rename_i hne
    cases h
    exact ⟨hne, rfl, rfl⟩

/-- Without a token, NULL is returned and the saved pointer is at the end of the text. -/
theorem CStringAt.strtokR_null (h : CStringAt m a t) (hfuel : t.length < fuel)
    (hstr : str.getD saveptr = a) (hnone : strtokR delim t = none) :
    InMemory.strtokR fuel m delim str saveptr = some (none, a + t.length, m) := by
  have hall : t.takeWhile delim.contains = t := by
    have hsplit := List.takeWhile_append_dropWhile (p := delim.contains) (l := t)
    rwa [strtokR_eq_none.mp hnone, List.append_nil] at hsplit
  simp only [InMemory.strtokR, hstr, strspn_eq h hfuel, Option.bind_some, hall, Nat.zero_add]
  rw [if_pos h.nul]

/-- With a token, that is returned, terminated, and the saved pointer is at the rest of the text. Only
the delimiter behind the token is written over. -/
theorem CStringAt.strtokR_token (h : CStringAt m a t) (hfuel : t.length < fuel)
    (hstr : str.getD saveptr = a) (hsome : strtokR delim t = some (token, rest)) :
    ∃ m', InMemory.strtokR fuel m delim str saveptr =
        some (some (a + (t.takeWhile delim.contains).length), a + (t.length - rest.length), m') ∧
      CStringAt m' (a + (t.takeWhile delim.contains).length) token ∧
      CStringAt m' (a + (t.length - rest.length)) rest ∧
      ∀ x, (x < a ∨ a + t.length ≤ x) → m' x = m x := by
  obtain ⟨hne, htoken, hrest⟩ := strtokR_eq_some hsome
  set gap := t.takeWhile delim.contains with hgap
  set text := t.dropWhile delim.contains with htext
  have hsplit : t = gap ++ text := List.takeWhile_append_dropWhile.symm
  have hlen : t.length = gap.length + text.length := by
    rw [← List.length_append, ← hsplit]
  have htextAt : CStringAt m (a + gap.length) text := by
    have hdrop := h.drop (n := gap.length) (by omega)
    rwa [hsplit, List.drop_left] at hdrop
  have hstart : m (a + gap.length) ≠ 0 := by
    cases htext' : text with
    | nil => exact absurd htext' hne
    | cons c cs =>
        rw [htext'] at htextAt
        rw [htextAt.head.1]
        exact htextAt.head.2
  have hcall : InMemory.strtokR fuel m delim str saveptr =
      (InMemory.strpbrk m delim fuel (a + gap.length)).bind fun
        | none => (InMemory.strlen m fuel (a + gap.length)).map fun len =>
            (some (a + gap.length), a + gap.length + len, m)
        | some stop => some (some (a + gap.length), stop + 1, Function.update m stop 0) := by
    simp only [InMemory.strtokR, hstr, strspn_eq h hfuel, Option.bind_some, Nat.zero_add, ← hgap]
    rw [if_neg hstart]
  have hcut : text = token ++ text.dropWhile (!delim.contains ·) := by
    rw [htoken, List.takeWhile_append_dropWhile]
  rw [hcall, strpbrk_eq htextAt (by omega), Option.bind_some, ← htoken]
  cases hstop : text.dropWhile (!delim.contains ·) with
  | nil =>
      rw [hstop] at hrest hcut
      rw [List.append_nil] at hcut
      rw [if_pos rfl]
      simp only [strlen_eq htextAt (show text.length < fuel by omega), Option.map_some]
      have hend : a + gap.length + text.length = a + (t.length - rest.length) := by
        rw [hrest, List.tail_nil, List.length_nil]
        omega
      refine ⟨m, by rw [hend], hcut ▸ htextAt, ?_, fun _ _ => rfl⟩
      rw [hrest, List.tail_nil]
      refine ⟨List.not_mem_nil, fun k c hc => by simp at hc, ?_⟩
      rw [List.length_nil, Nat.add_zero, Nat.sub_zero]
      exact h.nul
  | cons d rest' =>
      rw [hstop, List.tail_cons] at hrest
      rw [hstop, ← hrest] at hcut
      rw [if_neg (List.cons_ne_nil _ _)]
      have hcutLen : text.length = token.length + (rest.length + 1) := by
        rw [hcut, List.length_append, List.length_cons]
      have hend : a + gap.length + token.length + 1 = a + (t.length - rest.length) := by omega
      refine ⟨Function.update m (a + gap.length + token.length) 0, by rw [← hend], ?_, ?_, ?_⟩
      · rw [hcut] at htextAt
        exact htextAt.cut
      · have hrestAt := htextAt.drop (n := token.length + 1) (by omega)
        rw [hcut, List.drop_length_add_append, List.drop_one, List.tail_cons] at hrestAt
        rw [← hend]
        apply hrestAt.congr
        intro k _
        exact Function.update_of_ne (by omega) _ _
      · intro x hx
        exact Function.update_of_ne (by omega) _ _

/-- The token of a call is the next field, and the rest starts right behind its delimiter. -/
theorem strtokR_field {pre : Str} (hpre : t = [] ∨ ∀ c, pre.getLast? = some c → delim.contains c = true)
    (hsome : strtokR delim t = some (token, rest)) :
    IsField delim.contains (pre ++ t) (pre.length + (t.takeWhile delim.contains).length)
        token.length ∧
      (pre ++ t).drop (pre.length + (t.takeWhile delim.contains).length) =
        token ++ (t.dropWhile delim.contains).dropWhile (!delim.contains ·) ∧
      ∃ gone, t = gone ++ rest ∧ (t.takeWhile delim.contains).length + token.length ≤ gone.length ∧
        gone.length ≤ (t.takeWhile delim.contains).length + token.length + 1 ∧
        (rest = [] ∨ gone.length = (t.takeWhile delim.contains).length + token.length + 1 ∧
          ∀ c, (pre ++ gone).getLast? = some c → delim.contains c = true) := by
  obtain ⟨hne, htoken, hrest⟩ := strtokR_eq_some hsome
  have hlast : ∀ c, pre.getLast? = some c → delim.contains c = true := by
    rcases hpre with rfl | hlast
    · exact absurd rfl hne
    · exact hlast
  have hfield := isField_scan hlast t hne
  have htext : t.dropWhile delim.contains =
      token ++ (t.dropWhile delim.contains).dropWhile (!delim.contains ·) := by
    rw [htoken, List.takeWhile_append_dropWhile]
  have hsplit : t = t.takeWhile delim.contains ++ t.dropWhile delim.contains :=
    List.takeWhile_append_dropWhile.symm
  rw [← htoken] at hfield
  refine ⟨hfield, ?_, ?_⟩
  · rw [← htext, List.drop_length_add_append]
    exact (congrArg (List.drop _) hsplit).trans List.drop_left
  cases hstop : (t.dropWhile delim.contains).dropWhile (!delim.contains ·) with
  | nil =>
      rw [hstop] at hrest htext
      rw [List.append_nil] at htext
      have hlen : (t.takeWhile delim.contains).length + token.length = t.length := by
        rw [← htext, ← List.length_append, ← hsplit]
      refine ⟨t, ?_, hlen.le, by omega, .inl hrest⟩
      rw [hrest, List.tail_nil, List.append_nil]
  | cons d rest' =>
      rw [hstop, List.tail_cons] at hrest
      rw [hstop, ← hrest] at htext
      have hd : delim.contains d = true := by
        have hhead := List.head?_dropWhile_not (!delim.contains ·) (t.dropWhile delim.contains)
        rw [hstop] at hhead
        simpa using hhead
      have hlen : (t.takeWhile delim.contains ++ (token ++ [d])).length =
          (t.takeWhile delim.contains).length + token.length + 1 := by
        rw [List.length_append, List.length_append, List.length_singleton, Nat.add_assoc]
      refine ⟨t.takeWhile delim.contains ++ (token ++ [d]), ?_, by omega, hlen.le, .inr ⟨hlen, ?_⟩⟩
      · conv_lhs => rw [hsplit, htext]
        simp
      · intro c hc
        rw [← List.append_assoc, ← List.append_assoc, List.getLast?_concat] at hc
        cases hc
        exact hd

/-- What a call makes of the fields that are left: there are none, or the first one is its token and
the others are those of the rest. -/
theorem strtokR_fields {pre : Str} {fs : List (Nat × Nat)}
    (hpre : t = [] ∨ ∀ c, pre.getLast? = some c → delim.contains c = true)
    (hfs : FieldsFrom delim.contains (pre ++ t) pre.length fs) :
    (strtokR delim t = none ∧ fs = []) ∨
      ∃ token rest gone fs', strtokR delim t = some (token, rest) ∧ t = gone ++ rest ∧
        fs = (pre.length + (t.takeWhile delim.contains).length, token.length) :: fs' ∧
        FieldsFrom delim.contains (pre ++ gone ++ rest) (pre ++ gone).length fs' ∧
        ((pre ++ t).drop (pre.length + (t.takeWhile delim.contains).length)).take token.length =
          token ∧
        (rest = [] ∨ gone.length = (t.takeWhile delim.contains).length + token.length + 1 ∧
          ∀ c, (pre ++ gone).getLast? = some c → delim.contains c = true) := by
  cases hcall : strtokR delim t with
  | none =>
      refine .inl ⟨rfl, hfs.unique (.of_seps fun k c hk hc => ?_)⟩
      exact seps_of_dropWhile (strtokR_eq_none.mp hcall) hk hc
  | some p =>
      obtain ⟨token, rest⟩ := p
      obtain ⟨hfield, hdrop, gone, hgone, hlo, hhi, hpre'⟩ := strtokR_field hpre hcall
      have htext : pre ++ t = pre ++ gone ++ rest := by rw [List.append_assoc, ← hgone]
      obtain ⟨fs', hfs'⟩ := exists_fieldsFrom delim.contains (pre ++ t) (pre ++ gone).length
      refine .inr ⟨token, rest, gone, fs', rfl, hgone, ?_, htext ▸ hfs', ?_, hpre'⟩
      · refine hfs.unique (hfs'.cons hfield (by omega) ?_ ?_)
        · exact fun k c hlo hhi hc => seps_scan pre t hlo hhi hc
        · rw [List.length_append]
          omega
      · rw [hdrop, List.take_left]

/-- The fields of a text are the tokens the text is taken apart into elsewhere. -/
theorem tokensFrom_fields (n : Nat) : ∀ (pre : Str) {t : Str} {fs : List (Nat × Nat)}, t.length < n →
    (t = [] ∨ ∀ c, pre.getLast? = some c → delim.contains c = true) →
    FieldsFrom delim.contains (pre ++ t) pre.length fs →
      tokensFrom delim n t = fs.map fun f => ((pre ++ t).drop f.1).take f.2 := by
  induction n with
  | zero => exact fun _ _ _ hn => absurd hn (Nat.not_lt_zero _)
  | succ n ih =>
      intro pre t fs hn hpre hfs
      rw [tokensFrom]
      rcases strtokR_fields hpre hfs with ⟨hcall, rfl⟩ |
        ⟨token, rest, gone, fs', hcall, hgone, rfl, hfs', htoken, hpre'⟩
      · rw [hcall]
        rfl
      · have htext : pre ++ t = pre ++ gone ++ rest := by rw [List.append_assoc, ← hgone]
        have hlt : rest.length < n := by
          rcases hpre' with rfl | ⟨hone, -⟩
          · -- the call found a token, so the text is not empty
            have hne : t ≠ [] := fun hnil => (strtokR_eq_some hcall).1 (by rw [hnil]; rfl)
            have hpos := List.length_pos_iff.mpr hne
            rw [List.length_nil]
            omega
          · rw [hgone, List.length_append] at hn
            omega
        simp only [hcall, List.map_cons, htoken]
        rw [ih _ hlt (hpre'.imp_right And.right) hfs', htext]

/-- The names a path lookup walks through. -/
theorem tokens_fields {s : Str} {fs : List (Nat × Nat)} (h : FieldsFrom [slash].contains s 0 fs) :
    tokens s = fs.map fun f => (s.drop f.1).take f.2 :=
  tokensFrom_fields (s.length + 1) [] (Nat.lt_succ_self _)
    (.inr fun c hc => by cases hc) h

end Call

/-! Successive calls. -/

theorem strtokCalls_cons {fuel n saveptr saveptr' saveptr'' : Nat} {m m' m'' : Memory} {delim : Str}
    {str token : Option Nat} {tokens : List (Option Nat)}
    (hcall : InMemory.strtokR fuel m delim str saveptr = some (token, saveptr', m'))
    (hcalls : InMemory.strtokCalls fuel delim n none saveptr' m' = some (tokens, saveptr'', m'')) :
    InMemory.strtokCalls fuel delim (n + 1) str saveptr m =
      some (token :: tokens, saveptr'', m'') := by
  simp only [InMemory.strtokCalls, hcall, Option.bind_some, hcalls, Option.map_some]

/-- The calls made on the rest `t` of a text return its fields one after another, then NULL. -/
theorem strtokCalls_eq {a fuel : Nat} {delim : Str} (n : Nat) :
    ∀ {m : Memory} (pre t : Str) {fs : List (Nat × Nat)} (saveptr : Nat) (str : Option Nat),
      (t = [] ∨ ∀ c, pre.getLast? = some c → delim.contains c = true) →
      CStringAt m (a + pre.length) t → t.length < fuel →
      FieldsFrom delim.contains (pre ++ t) pre.length fs → str.getD saveptr = a + pre.length →
      ∃ saveptr' m', InMemory.strtokCalls fuel delim n str saveptr m =
          some ((fs.map (fun f : Nat × Nat => some (a + f.1)) ++ List.replicate n none).take n,
            saveptr', m') ∧
        (∀ f ∈ fs.take n, CStringAt m' (a + f.1) (((pre ++ t).drop f.1).take f.2)) ∧
        ∀ x, (x < a + pre.length ∨ a + pre.length + t.length ≤ x) → m' x = m x := by
  induction n with
  | zero =>
      intro m pre t fs saveptr str _ _ _ _ _
      exact ⟨saveptr, m, rfl, fun f hf => by simp at hf, fun _ _ => rfl⟩
  | succ n ih =>
      intro m pre t fs saveptr str hpre h hfuel hfs hstr
      rcases strtokR_fields hpre hfs with ⟨hcall, rfl⟩ |
        ⟨token, rest, gone, fs', hcall, hgone, rfl, hfs', htoken, hpre'⟩
      · -- from here on the saved pointer stays at the NUL
        have hend : CStringAt m (a + (pre ++ t).length) [] := by
          refine ⟨List.not_mem_nil, fun k c hc => by simp at hc, ?_⟩
          rw [List.length_append, ← Nat.add_assoc]
          exact h.nul
        have hnone : FieldsFrom delim.contains (pre ++ t ++ []) (pre ++ t).length [] := by
          apply FieldsFrom.of_seps
          intro k c hk hc
          rw [List.append_nil, List.getElem?_eq_none hk] at hc
          cases hc
        obtain ⟨saveptr', m', hrun, -, hframe⟩ := ih _ _
          (a + pre.length + t.length) none (.inl rfl) hend (Nat.zero_lt_of_lt hfuel) hnone
          (by rw [List.length_append, ← Nat.add_assoc]; rfl)
        refine ⟨saveptr', m', ?_, fun f hf => by simp at hf, ?_⟩
        · exact strtokCalls_cons (h.strtokR_null hfuel hstr hcall) hrun
        · intro x hx
          apply hframe
          rw [List.length_append, List.length_nil]
          omega
      · obtain ⟨m₁, hfirst, htokenAt, hrest, hframe₁⟩ := h.strtokR_token hfuel hstr hcall
        have htext : pre ++ t = pre ++ gone ++ rest := by rw [List.append_assoc, ← hgone]
        have hlen : t.length = gone.length + rest.length := by
          conv_lhs => rw [hgone, List.length_append]
        have hstep : a + pre.length + (t.length - rest.length) = a + (pre ++ gone).length := by
          rw [List.length_append]
          omega
        rw [hstep] at hrest hfirst
        rw [Nat.add_assoc a] at hfirst htokenAt
        obtain ⟨saveptr', m', hrun, hlater, hframe⟩ := ih _ _
          (a + (pre ++ gone).length) none (hpre'.imp_right And.right) hrest (by omega) hfs' rfl
        refine ⟨saveptr', m', ?_, ?_, ?_⟩
        · rw [strtokCalls_cons hfirst hrun]
          simp [List.replicate_succ', ← List.append_assoc]
        · intro f hf
          rw [List.take_succ_cons, List.mem_cons] at hf
          rcases hf with rfl | hf
          · rw [htoken]
            apply htokenAt.congr
            intro k hk
            apply hframe
            rw [List.length_append]
            rcases hpre' with rfl | ⟨hone, -⟩
            · rw [List.length_nil]
              omega
            · omega
          · rw [htext]
            exact hlater f hf
        · intro x hx
          rw [hframe x (by rw [List.length_append]; omega), hframe₁ x (by omega)]

/-- Any number of calls on a string returns its maximal stretches without a delimiter, in order, each
one terminated where it stands, and NULL from then on. Nothing outside the string is written. -/
theorem strtok_splits (m : Memory) (a : Nat) (s delim : Str) (saveptr fuel : Nat)
    (h : CStringAt m a s) (hfuel : s.length < fuel) :
    ∃ fs, FieldsFrom delim.contains s 0 fs ∧ ∀ n, ∃ saveptr' m',
      InMemory.strtokCalls fuel delim n (some a) saveptr m =
          some ((fs.map (fun f : Nat × Nat => some (a + f.1)) ++ List.replicate n none).take n,
            saveptr', m') ∧
        (∀ f ∈ fs.take n, CStringAt m' (a + f.1) ((s.drop f.1).take f.2)) ∧
        ∀ x, (x < a ∨ a + s.length ≤ x) → m' x = m x := by
  obtain ⟨fs, hfs⟩ := exists_fieldsFrom delim.contains s 0
  refine ⟨fs, hfs, fun n => ?_⟩
  have hcalls := strtokCalls_eq n [] s saveptr (some a)
    (.inr fun c hc => by cases hc) h hfuel hfs rfl
  simpa only [List.length_nil, Nat.add_zero, List.nil_append] using hcalls

theorem strtok_splits_usr_bin :
    ∃ fs, FieldsFrom [slash].contains (ascii "/usr//bin") 0 fs ∧ ∀ n, ∃ saveptr' m',
      InMemory.strtokCalls 10 [slash] n (some 4096) 0
          (store (fun _ => 0) 4096 (ascii "/usr//bin")) =
          some ((fs.map (fun f : Nat × Nat => some (4096 + f.1)) ++ List.replicate n none).take n,
            saveptr', m') ∧
        (∀ f ∈ fs.take n, CStringAt m' (4096 + f.1) (((ascii "/usr//bin").drop f.1).take f.2)) ∧
        ∀ x, (x < 4096 ∨ 4096 + (ascii "/usr//bin").length ≤ x) →
          m' x = store (fun _ => 0) 4096 (ascii "/usr//bin") x := by
  apply strtok_splits
  · refine ⟨by decide, fun k c hc => ?_, store_of_ge _ _ le_rfl⟩
    obtain ⟨hk, rfl⟩ := List.getElem?_eq_some_iff.mp hc
    exact store_at _ _ _ _ hk
  · decide

example : (InMemory.strtokCalls 10 [slash] 4 (some 4096) 0
    (store (fun _ => 0) 4096 (ascii "/usr//bin"))).map Prod.fst =
      some [some 4097, some 4102, none, none] := by decide

/-! `memmove`. -/

/-- A byte goes to the start of the destination before the rest of the range is copied. -/
theorem move_succ_head (m : Memory) {d s n : Nat} (h : d ≤ s ∨ s + (n + 1) ≤ d) :
    move (Function.update m d (m s)) (d + 1) (s + 1) n = move m d s (n + 1) := by
  funext x
  by_cases hx : d + 1 ≤ x ∧ x < d + 1 + n
  · rw [move_inside _ hx.1 hx.2, move_inside _ (by omega) (by omega),
      Function.update_of_ne (by omega), show s + 1 + (x - (d + 1)) = s + (x - d) by omega]
  · rw [move_outside _ (by omega)]
    by_cases hd : x = d
    · rw [hd, Function.update_self, move_inside _ le_rfl (by omega), Nat.sub_self, Nat.add_zero]
    · rw [Function.update_of_ne hd, move_outside _ (by omega)]

/-- A byte goes to the end of the destination before the rest of the range is copied. -/
theorem move_succ_last (m : Memory) {d s n : Nat} (h : s ≤ d) :
    move (Function.update m (d + n) (m (s + n))) d s n = move m d s (n + 1) := by
  funext x
  by_cases hx : d ≤ x ∧ x < d + n
  · rw [move_inside _ hx.1 hx.2, move_inside _ hx.1 (by omega), Function.update_of_ne (by omega)]
  · rw [move_outside _ (by omega)]
    by_cases hd : x = d + n
    · rw [hd, Function.update_self, move_inside _ (by omega) (by omega), Nat.add_sub_cancel_left]
    · rw [Function.update_of_ne hd, move_outside _ (by omega)]

/-- Upwards no source byte is written over before it is read, where the destination is below. -/
theorem copyUp_eq_move (n : Nat) : ∀ (m : Memory) {d s : Nat}, (d ≤ s ∨ s + n ≤ d) →
    InMemory.copyUp m d s n = move m d s n := by
  induction n with
  | zero =>
      intro m d s _
      funext x
      rw [move_outside _ (by omega)]
      rfl
  | succ n ih =>
      intro m d s h
      rw [InMemory.copyUp, ih _ (by omega), move_succ_head m h]

/-- Downwards, where it is above. -/
theorem copyDown_eq_move (n : Nat) : ∀ (m : Memory) {d s : Nat}, s ≤ d →
    InMemory.copyDown m (d + n) (s + n) n = move m d s n := by
  induction n with
  | zero =>
      intro m d s _
      funext x
      rw [move_outside _ (by omega)]
      rfl
  | succ n ih =>
      intro m d s h
      rw [InMemory.copyDown, ← Nat.add_assoc, ← Nat.add_assoc, Nat.add_sub_cancel,
        Nat.add_sub_cancel, ih _ h, move_succ_last m h]

/-- The two loops make one copy, so the removal of a directory entry copies as the source does. -/
theorem memmove_eq_move (m : Memory) (dest src n : Nat) :
    (InMemory.memmove m dest src n).2 = move m dest src n := by
  simp only [InMemory.memmove]
  split_ifs with hdir
  · exact copyDown_eq_move n m (by omega)
  · exact copyUp_eq_move n m (by omega)

/-- `memmove` stores what a temporary holds that was loaded from the source before. -/
theorem memmove_through_temporary (m : Memory) (dest src n : Nat) :
    (InMemory.memmove m dest src n).2 = store m dest (load m src n) ∧
      load (InMemory.memmove m dest src n).2 dest n = load m src n ∧
      ∀ x, (x < dest ∨ dest + n ≤ x) → (InMemory.memmove m dest src n).2 x = m x := by
  rw [memmove_eq_move]
  have hstore : move m dest src n = store m dest (load m src n) := by
    funext x
    by_cases hx : dest ≤ x ∧ x < dest + n
    · have hk : x - dest < (load m src n).length := by
        rw [load_length]
        omega
      calc move m dest src n x = m (src + (x - dest)) := move_inside m hx.1 hx.2
        _ = (load m src n)[x - dest] := (load_getElem m src n _ hk).symm
        _ = store m dest (load m src n) (dest + (x - dest)) := (store_at m dest _ _ hk).symm
        _ = store m dest (load m src n) x := by rw [Nat.add_sub_cancel' hx.1]
    · rw [move_outside _ (by omega), store_outside _ _ (by rw [load_length]; omega)]
  refine ⟨hstore, ?_, fun x hx => move_outside m hx⟩
  calc load (move m dest src n) dest n
      = load (store m dest (load m src n)) dest (load m src n).length := by
        rw [hstore, load_length]
    _ = load m src n := load_store m dest (load m src n)

end Chthon
