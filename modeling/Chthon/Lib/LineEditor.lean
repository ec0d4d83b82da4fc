import Mathlib

/-! A line edited at its end: a key puts an element behind it, while there is room, or erases the last
one. The editor echoes to a terminal that overwrites at its cursor and can step back, and what stands
in front of the cursor is the line. -/

namespace LineEditor

variable {α : Type}

inductive Key (α : Type) where
  | put (c : α)
  | erase
  deriving DecidableEq

/-- A line of at most `cap` elements after a key. -/
def edit (cap : Nat) (line : List α) : Key α → List α
  | .put c => if line.length < cap then line ++ [c] else line
  | .erase => line.dropLast

/-- The line that keys make of an empty one. -/
def typed (cap : Nat) (keys : List (Key α)) : List α := keys.foldl (edit cap) []

/-- What is sent to the terminal: something to print, or a step back. -/
inductive Output (α : Type) where
  | char (c : α)
  | back
  deriving DecidableEq

/-- What an output is sent as, where stepping back is asked for by an element of its own. -/
def Output.sent (back : α) : Output α → α
  | .char c => c
  | .back => back

/-- What a terminal makes of an element. -/
def received [DecidableEq α] (back c : α) : Output α := if c = back then .back else .char c

/-- The echo of a key: an element taken is printed, an element erased is overwritten. -/
def echo (cap : Nat) (blank : α) (line : List α) : Key α → List (Output α)
  | .put c => if line.length < cap then [.char c] else []
  | .erase => if line.length = 0 then [] else [.back, .char blank, .back]

/-- The echo of keys after each other, from a line on. -/
def echoes (cap : Nat) (blank : α) (line : List α) : List (Key α) → List (Output α)
  | [] => []
  | key :: keys => echo cap blank line key ++ echoes cap blank (edit cap line key) keys

/-- One line of a terminal, in front of the cursor and from it on. -/
structure Screen (α : Type) where
  before : List α
  after : List α

def Screen.put (screen : Screen α) : Output α → Screen α
  | .char c => ⟨screen.before ++ [c], screen.after.tail⟩
  | .back => ⟨screen.before.dropLast, screen.before.getLast?.toList ++ screen.after⟩

/-- The line stands behind the prompt and in front of the cursor, with nothing behind it. -/
structure Shows (blank : α) (prompt line : List α) (screen : Screen α) : Prop where
  before : screen.before = prompt ++ line
  after : ∀ c ∈ screen.after, c = blank

section Editing

variable {cap : Nat} {blank : α} {line prompt : List α} {keys : List (Key α)}

theorem edit_length_le (h : line.length ≤ cap) (key : Key α) : (edit cap line key).length ≤ cap := by
  cases key with
  | put c =>
      rw [edit]
      split_ifs with hroom
      · rw [List.length_append, List.length_singleton]
        omega
      · exact h
  | erase =>
      rw [edit, List.length_dropLast]
      omega

theorem typed_concat (keys : List (Key α)) (key : Key α) :
    typed cap (keys ++ [key]) = edit cap (typed cap keys) key := by
  rw [typed, List.foldl_append]
  rfl

theorem typed_length_le (keys : List (Key α)) : (typed cap keys).length ≤ cap := by
  induction keys using List.reverseRecOn with
  | nil => exact Nat.zero_le cap
  | append_singleton keys key ih =>
      rw [typed_concat]
      exact edit_length_le ih key

theorem echoes_concat (line : List α) (keys : List (Key α)) (key : Key α) :
    echoes cap blank line (keys ++ [key]) =
      echoes cap blank line keys ++ echo cap blank (keys.foldl (edit cap) line) key := by
  induction keys generalizing line with
  | nil => exact List.append_nil _
  | cons k keys ih => rw [List.cons_append, echoes, ih, echoes, List.foldl_cons, List.append_assoc]

/-- What is echoed is an element that was put, the blank or a step back. -/
theorem mem_echoes {o : Output α} (h : o ∈ echoes cap blank line keys) :
    o = .back ∨ o = .char blank ∨ ∃ c, Key.put c ∈ keys ∧ o = .char c := by
  induction keys generalizing line with
  | nil => cases h
  | cons key keys ih =>
      rw [LineEditor.echoes, List.mem_append] at h
      rcases h with h | h
      · cases key with
        | put c =>
            rw [echo] at h
            split_ifs at h
            · exact .inr (.inr ⟨c, List.mem_cons_self, List.mem_singleton.mp h⟩)
            · cases h
        | erase =>
            rw [echo] at h
            split_ifs at h
            · cases h
            · simp only [List.mem_cons, List.not_mem_nil, or_false] at h
              tauto
      · rcases ih h with hback | hblank | ⟨c, hc, ho⟩
        · exact .inl hback
        · exact .inr (.inl hblank)
        · exact .inr (.inr ⟨c, List.mem_cons_of_mem _ hc, ho⟩)

/-- The terminal takes what is sent for what was meant, as no key puts the element that steps back. -/
theorem map_received_sent [DecidableEq α] {back : α} (hblank : blank ≠ back)
    (hkeys : Key.put back ∉ keys) :
    ((LineEditor.echoes cap blank line keys).map (Output.sent back)).map (received back) =
      LineEditor.echoes cap blank line keys := by
  rw [List.map_map, List.map_congr_left, List.map_id]
  intro o ho
  rcases mem_echoes ho with rfl | rfl | ⟨c, hc, rfl⟩
  · exact if_pos rfl
  · exact if_neg hblank
  · have hne : c ≠ back := by
      rintro rfl
      exact hkeys hc
    exact if_neg hne

/-- The echo of a key changes what is shown as the key changes the line. -/
theorem Shows.echo {screen : Screen α} (h : Shows blank prompt line screen) (key : Key α) :
    Shows blank prompt (edit cap line key)
      ((LineEditor.echo cap blank line key).foldl Screen.put screen) := by
  cases key with
  | put c =>
      rw [edit, LineEditor.echo]
      split_ifs
      · refine ⟨?_, fun d hd => h.after d (List.mem_of_mem_tail hd)⟩
        rw [← List.append_assoc, ← h.before]
        rfl
      · exact h
  | erase =>
      rw [edit, LineEditor.echo]
      rcases List.eq_nil_or_concat' line with rfl | ⟨line, c, rfl⟩
      · exact h
      · rw [if_neg (by simp), List.dropLast_concat]
        have hbefore : screen.before = prompt ++ line ++ [c] := by
          rw [h.before, List.append_assoc]
        -- back over the last element, a blank over it, and back over the blank
        have hscreen : [Output.back, .char blank, .back].foldl Screen.put screen =
            ⟨prompt ++ line, blank :: screen.after⟩ := by
          simp [Screen.put, hbefore]
        rw [hscreen]
        refine ⟨rfl, fun d hd => ?_⟩
        rcases List.mem_cons.mp hd with rfl | hd
        · rfl
        · exact h.after d hd

/-- Over any keys the terminal shows the line. -/
theorem Shows.echoes {screen : Screen α} (h : Shows blank prompt line screen)
    (keys : List (Key α)) :
    Shows blank prompt (keys.foldl (edit cap) line)
      ((LineEditor.echoes cap blank line keys).foldl Screen.put screen) := by
  induction keys generalizing line screen with
  | nil => exact h
  | cons key keys ih =>
      rw [LineEditor.echoes, List.foldl_append, List.foldl_cons]
      exact ih (h.echo key)

end Editing

end LineEditor
