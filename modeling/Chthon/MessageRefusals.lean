import Chthon.CopyRefusals
import Chthon.ProcessDirectories

/-! When a message is refused, message by message: the condition under which `send_message` returns
a negative number. -/

namespace Chthon

def TextRefused (k : Kernel) (addr : Nat) (refused : Str → Prop) : Prop :=
  match k.text addr with
  | none => True
  | some path => refused path

def PathsRefused (k : Kernel) (msg : Message) (refused : Str → Str → Prop) : Prop :=
  msg.path = 0 ∨ msg.data = 0 ∨
    TextRefused k msg.path fun src => TextRefused k msg.data fun dst => refused src dst

section Send

variable {out : Outside} {k k' : Kernel} {msg msg' : Message} {result : Int}

theorem textRefused_iff {addr : Nat} {path : Str} (h : k.text addr = some path)
    (refused : Str → Prop) : TextRefused k addr refused ↔ refused path := by
  rw [TextRefused, h]

theorem pathsRefused_iff {src dst : Str} (hpath : msg.path ≠ 0) (hdata : msg.data ≠ 0)
    (hsrc : k.text msg.path = some src) (hdst : k.text msg.data = some dst)
    (refused : Str → Str → Prop) : PathsRefused k msg refused ↔ refused src dst := by
  rw [PathsRefused, or_iff_right hpath, or_iff_right hdata, textRefused_iff hsrc,
    textRefused_iff hdst]

/-- A message without one of its two paths is refused, any other hands them on. -/
theorem withPaths_some {call : Str → Str → Option (Int × Kernel)}
    (h : withPaths k msg call = some (result, msg', k')) :
    result = -1 ∧ k' = k ∧ (∀ refused, PathsRefused k msg refused) ∨
      ∃ src dst, k.text msg.path = some src ∧ k.text msg.data = some dst ∧
        call src dst = some (result, k') ∧
        ∀ refused, PathsRefused k msg refused ↔ refused src dst := by
  unfold withPaths at h
  split_ifs at h with hnull
  · cases h
    exact .inl ⟨rfl, rfl, fun _ => hnull.imp_right .inl⟩
  · rw [not_or] at hnull
    split at h
    · rename_i src dst hsrc hdst
      obtain ⟨⟨_, _⟩, hcalled, heq⟩ := Option.map_eq_some_iff.mp h
      cases heq
      exact .inr ⟨src, dst, hsrc, hdst, hcalled, pathsRefused_iff hnull.1 hnull.2 hsrc hdst⟩
    · cases h

theorem handleExecMessage_result (h : handleExecMessage k msg = some (result, k')) :
    result = if msg.path = 0 then -1 else 0 := by
  unfold handleExecMessage at h
  by_cases hnull : msg.path = 0
  · rw [if_pos hnull] at h ⊢
    cases h
    rfl
  · rw [if_neg hnull] at h ⊢
    split at h
    · cases h
    · dsimp only at h
      split_ifs at h
      · cases h
        rfl
      · rw [Option.map_eq_some_iff] at h
        obtain ⟨_, _, heq⟩ := h
        cases heq
        rfl

end Send

end Chthon
