import Chthon.Lib.ByteMemory
import Chthon.Lib.PathText

/-! C strings. A `Str` is the text of a string without its terminating NUL; the comparisons of
`string.c` on two such texts are equality and prefix tests, `strrchr` is the cut at the last
separator, and `strtok_r` is followed call by call. -/

namespace Chthon

open PathText

abbrev Str := List UInt8

/-- What a `char *` argument points to: the bytes before the first NUL. -/
structure CString where
  chars : Str
  nul_free : 0 ∉ chars

def ascii (text : String) : Str := text.toList.map fun c => UInt8.ofNat c.toNat

def slash : UInt8 := 47

/-- `if (*path == '/') path++;` -/
def skipSlash : Str → Str
  | [] => []
  | c :: cs => if c = slash then cs else c :: cs

/-- One call of `strtok_r`: the token and where the saved pointer is left. -/
def strtokR (delim str : Str) : Option (Str × Str) :=
  match str.dropWhile delim.contains with
  | [] => none
  | token => some (token.takeWhile (!delim.contains ·), (token.dropWhile (!delim.contains ·)).tail)

/-- The tokens of successive calls; each call consumes at least one byte of the text. -/
def tokensFrom (delim : Str) : Nat → Str → List Str
  | 0, _ => []
  | fuel + 1, str =>
      match strtokR delim str with
      | none => []
      | some (token, rest) => token :: tokensFrom delim fuel rest

def tokens (str : Str) : List Str := tokensFrom [slash] (str.length + 1) str

theorem skipSlash_nul_free {s : Str} (hs : 0 ∉ s) : 0 ∉ skipSlash s := by
  cases s with
  | nil => exact hs
  | cons c cs =>
      rw [skipSlash]
      split_ifs
      · exact fun h => hs (List.mem_cons_of_mem _ h)
      · exact hs

theorem components_skipSlash (s : Str) :
    components slash (skipSlash s) = components slash s := by
  cases s with
  | nil => rfl
  | cons c cs =>
      rw [skipSlash]
      split_ifs with hc
      · rw [hc, components_sep_cons]
      · rfl

section Tokens

variable {sep : UInt8}

variable (sep) in
theorem components_dropWhile (s : Str) :
    components sep (s.dropWhile [sep].contains) = components sep s := by
  induction s with
  | nil => rfl
  | cons c cs ih =>
      by_cases hc : c = sep
      · simp [hc, ih]
      · simp [hc]

theorem strtokR_none {s : Str} (h : strtokR [sep] s = none) : components sep s = [] := by
  rw [← components_dropWhile]
  rw [strtokR] at h
  split at h
  · rename_i hnil
    rw [hnil, components_nil]
  · cases h

/-- A token is the first component, and the saved pointer is where the others start. -/
theorem strtokR_some {s token rest : Str} (h : strtokR [sep] s = some (token, rest)) :
    components sep s = token :: components sep rest ∧ rest.length < s.length := by
  rw [← components_dropWhile]
  have hlen := List.length_dropWhile_le [sep].contains s
  rw [strtokR] at h
  split at h
  · cases h
  rename_i text hne
  set text := s.dropWhile [sep].contains with htext
  have hhead : ∀ h : text ≠ [], text.head h ≠ sep := by
    intro h
    simpa using List.head_dropWhile_not [sep].contains h
  clear_value text
  have hsplit := List.takeWhile_append_dropWhile (p := fun x => !([sep] : Str).contains x)
    (l := text)
  have hcomp : IsComponent sep (text.takeWhile (!([sep] : Str).contains ·)) := by
    constructor
    · cases text with
      | nil => exact absurd rfl hne
      | cons c cs =>
          have hc : c ≠ sep := by simpa using hhead (by simp)
          simp [hc]
    · intro hmem
      simpa using List.mem_takeWhile_imp hmem
  obtain ⟨rfl, rfl⟩ : text.takeWhile (!([sep] : Str).contains ·) = token ∧
      (text.dropWhile (!([sep] : Str).contains ·)).tail = rest := by simpa using h
  cases hrest : text.dropWhile (!([sep] : Str).contains ·) with
  | nil =>
      rw [hrest, List.append_nil] at hsplit
      rw [hsplit] at hcomp ⊢
      have hpos := List.length_pos_iff.mpr hcomp.1
      exact ⟨by simpa using components_of_isComponent sep hcomp, by simp; omega⟩
  | cons d ds =>
      have hd : d = sep := by
        have := List.head_dropWhile_not (fun x => !([sep] : Str).contains x)
          (l := text) (by rw [hrest]; exact List.cons_ne_nil _ _)
        simp only [hrest, List.head_cons] at this
        simpa using this
      rw [hd] at hrest
      rw [hrest] at hsplit
      have hsum := congrArg List.length hsplit
      simp only [List.length_append, List.length_cons] at hsum
      refine ⟨?_, by simp only [List.tail_cons]; omega⟩
      conv_lhs => rw [← hsplit]
      rw [components_append_sep, components_of_isComponent sep hcomp]
      rfl

theorem tokensFrom_eq (fuel : Nat) :
    ∀ s : Str, s.length < fuel → tokensFrom [sep] fuel s = components sep s := by
  induction fuel with
  | zero => intro s hs; omega
  | succ fuel ih =>
      intro s hs
      rw [tokensFrom]
      cases h : strtokR [sep] s with
      | none => rw [strtokR_none h]
      | some p =>
          obtain ⟨hcomp, hlen⟩ := strtokR_some h
          rw [hcomp]
          exact congrArg (p.1 :: ·) (ih p.2 (by omega))

end Tokens

/-- The tokens `strtok_r` hands out are the components of the text. -/
theorem tokens_eq_components (s : Str) : tokens s = components slash s :=
  tokensFrom_eq _ s (Nat.lt_succ_self _)

end Chthon
