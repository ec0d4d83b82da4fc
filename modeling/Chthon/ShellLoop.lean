import Chthon.AbyssListing
import Chthon.ShellCommands

/-! The loop of `shell` over its buffer, `user/shell.c`. A line is edited in the buffer, cut at its
first space, and `strtok_r` takes the arguments apart where they lie, so each line is typed over what
is left of the one before. Seen from outside, it is a session of the lines that were typed. -/

namespace Chthon.Shell

open ByteMemory LineEditor PathText

def prompt : Str := ascii "$ "

/-- The text a pointer leads to; NULL has none. -/
def argText (m : Memory) : Option Nat → Option (Option Str)
  | none => some none
  | some args => (stringWithin m heapSize args).map some

/-- The text of a token; NULL has none. -/
def nextToken (m : Memory) (str : Option Nat) (saveptr : Nat) :
    Option (Option Str × Nat × Memory) :=
  (InMemory.strtokR heapSize m [32] str saveptr).bind fun (token, saveptr, m) =>
    (argText m token).map fun token => (token, saveptr, m)

/-- `src_arg` and `dst_arg` of `cmd_cp` and `cmd_mv`. Before the first call `saveptr` is not set. -/
def bothTokens (m : Memory) (args : Option Nat) : Option (Option (Str × Str) × Memory) :=
  args.bind fun args =>
    (nextToken m (some args) 0).bind fun (src, saveptr, m) =>
      (nextToken m none saveptr).map fun (dst, _, m) =>
        (match src, dst with
          | some src, some dst => some (src, dst)
          | _, _ => none, m)

/-- `old_path` and `new_path` of `cmd_bind`, which only looks for a second one behind a first. -/
def bindTokens (m : Memory) (args : Option Nat) : Option (Option (Str × Str) × Memory) :=
  args.bind fun args =>
    (nextToken m (some args) 0).bind fun
      | (none, _, m) => some (none, m)
      | (some old, saveptr, m) =>
          (nextToken m none saveptr).map fun (new, _, m) => (new.map fun new => (old, new), m)

/-- `recursive` and `target` of `cmd_rm`. -/
def rmTokens (m : Memory) : Option Nat → Option (Removal × Memory)
  | none => some (.usage, m)
  | some args =>
      if m args = 0 then some (.usage, m)
      else
        (nextToken m (some args) 0).bind fun
          | (none, _, m) => some (.missing, m)
          | (some token, saveptr, m) =>
              if token = ascii "-r" then
                (nextToken m none saveptr).map fun (path, _, m) =>
                  (match path with
                    | none => .missing
                    | some path => .target true path, m)
              else some (.target false token, m)

/-- `cmd_cp` on the buffer `cp_args` of `cmd_mv`. -/
def cpArgs (k : Kernel) (line : Str) : Option (Str × Kernel) :=
  (bothTokens (store (fun _ => 0) 0 (line ++ [0])) (some 0)).bind fun (files, _) => cpFiles k files

/-- The command that was chosen, with `args`; what it prints, and the buffer it leaves. -/
def callCommand (m : Memory) (cmd : Nat) (args : Option Nat) (k : Kernel) :
    Command → Option (Str × Memory × Kernel)
  | .exit => none
  | .echo => (argText m args).map fun args => (cmdEcho args, m, k)
  | .pwd => (cmdPwd k).map fun out => (out, m, k)
  | .cd => (argText m args).bind fun args => (runCd k args).map fun (out, k) => (out, m, k)
  | .ls => (argText m args).bind fun args => (cmdLs k args).map fun (out, k) => (out, m, k)
  | .cp =>
      (bothTokens m args).bind fun (files, m) =>
        (cpFiles k files).map fun (out, k) => (out, m, k)
  | .touch => (argText m args).bind fun args => (cmdTouch k args).map fun (out, k) => (out, m, k)
  | .mv =>
      (bothTokens m args).bind fun (files, m) =>
        (mvFiles (cpArgs k) k files).map fun (out, k) => (out, m, k)
  | .rm =>
      (rmTokens m args).bind fun (removal, m) =>
        (rmTarget k removal).map fun (out, k) => (out, m, k)
  | .mkdir => (argText m args).bind fun args => (cmdMkdir k args).map fun (out, k) => (out, m, k)
  | .bind =>
      (bindTokens m args).bind fun (paths, m) =>
        (bindPaths k paths).map fun (out, k) => (out, m, k)
  | .unbind =>
      (argText m args).map fun args => ((unbindPath k args).1, m, (unbindPath k args).2)
  | .unknown =>
      (stringWithin m heapSize cmd).map fun word =>
        (ascii "Unknown command: " ++ word ++ newline, m, k)

/-- What `shell` has put so far, its buffer, the kernel and the keys not read. -/
structure ShellState where
  out : Str
  mem : Memory
  kernel : Kernel
  stream : Str

/-- One round of `shell` with its buffer at `input`. -/
def shellRound (input : Nat) (s : ShellState) : Option ShellState :=
  (inputLoop s.mem input 0 s.stream).bind fun r =>
    (callCommand (splitArgs r.mem input r.pos).1 input (splitArgs r.mem input r.pos).2 s.kernel
      (dispatch (splitArgs r.mem input r.pos).1 input)).map fun (out, m, k) =>
        ⟨s.out ++ (prompt ++ r.out ++ out), m, k, r.rest⟩

/-- `shell` for `n` lines. -/
def shell (input : Nat) : Nat → ShellState → Option ShellState
  | 0, s => some s
  | n + 1, s => (shellRound input s).bind (shell input n)

/-! What a round leaves in the buffer does not matter to the next one, except for its last byte. -/

/-- The keys of lines after each other. -/
inductive KeyLines (rest : Str) : Str → List Str → Prop
  | nil : KeyLines rest rest []
  | cons {stream keys more : Str} {lines : List Str} : LineKeys stream keys more →
      KeyLines rest more lines → KeyLines rest stream (keys :: lines)

/-- What the input loop puts for the keys of a line. -/
def lineEcho (keys : Str) : Str :=
  (echoes 255 32 [] (keys.filterMap key)).map (Output.sent 8) ++
    if (editedLine keys).length < 255 then newline else []

/-- What a session looks like: a prompt, the echo of the line, and what the command prints. -/
def transcript : List Str → List Str → Str
  | keys :: lines, out :: outs => prompt ++ lineEcho keys ++ out ++ transcript lines outs
  | _, _ => []

section Tokens

variable {m : Memory} {a saveptr : Nat} {t c : Str} {cs : List Str} {str : Option Nat}

theorem argText_eq {args : Option Nat} {text : Option Str} (h : Option.Rel (CStringAt m) args text)
    (hlen : ∀ t, text = some t → t.length < heapSize) : argText m args = some text := by
  cases h with
  | none => rfl
  | some htext =>
      have hstring := stringWithin_eq htext.nul_free (hlen _ rfl)
        (fun k hk => htext.chars k _ (List.getElem?_eq_getElem hk)) htext.nul
      rw [argText, hstring]
      rfl

/-- What a call leaves behind its token: the other words, in memory that is otherwise as it was. -/
structure TokensLeft (m : Memory) (a : Nat) (t : Str) (cs : List Str) (m' : Memory)
    (saveptr : Nat) (rest : Str) : Prop where
  text : CStringAt m' saveptr rest
  words : components 32 rest = cs
  bound : saveptr + rest.length = a + t.length
  shorter : rest.length ≤ t.length
  kept : ∀ x, a + t.length ≤ x → m' x = m x

theorem nextToken_eq (h : CStringAt m a t) (hlen : t.length < heapSize)
    (hstr : str.getD saveptr = a) :
    ∃ m' saveptr' rest, nextToken m str saveptr = some ((components 32 t).head?, saveptr', m') ∧
      TokensLeft m a t (components 32 t).tail m' saveptr' rest := by
  cases hcall : strtokR ([32]) t with
  | none =>
      have hend : CStringAt m (a + t.length) [] :=
        ⟨List.not_mem_nil, fun k c hc => by simp at hc, h.nul⟩
      have hnone : components 32 t = [] := strtokR_none hcall
      refine ⟨m, a + t.length, [], ?_, ?_⟩
      · rw [nextToken, h.strtokR_null hlen hstr hcall, hnone]
        rfl
      · exact ⟨hend, by rw [hnone]; rfl, rfl, Nat.zero_le _, fun _ _ => rfl⟩
  | some p =>
      obtain ⟨token, rest⟩ := p
      obtain ⟨hwords, hshort⟩ :
          components 32 t = token :: components 32 rest ∧ rest.length < t.length :=
        strtokR_some hcall
      obtain ⟨m', hstrtok, htoken, hrest, hkept⟩ := h.strtokR_token hlen hstr hcall
      have htokenLen : token.length < heapSize := by
        have hparts := (strtokR_eq_some hcall).2.1
        calc token.length ≤ (t.dropWhile [32].contains).length := by
              rw [hparts]
              exact (List.takeWhile_prefix _).length_le
          _ ≤ t.length := List.length_dropWhile_le _ _
          _ < heapSize := hlen
      have htext : argText m' (some (a + (t.takeWhile [32].contains).length)) =
          some (some token) :=
        argText_eq (.some htoken) fun _ heq => Option.some.inj heq ▸ htokenLen
      refine ⟨m', a + (t.length - rest.length), rest, ?_, ?_⟩
      · rw [nextToken, hstrtok, Option.bind_some, hwords]
        simp only [htext]
        rfl
      · exact ⟨hrest, by rw [hwords]; rfl, by omega, hshort.le, fun x hx => hkept x (.inr hx)⟩

/-- Two calls hand out the first two words. -/
theorem nextToken_twice (h : CStringAt m a t) (hlen : t.length < heapSize) :
    ∃ m₁ saveptr m₂ saveptr',
      nextToken m (some a) 0 = some ((components 32 t).head?, saveptr, m₁) ∧
      nextToken m₁ none saveptr = some ((components 32 t).tail.head?, saveptr', m₂) ∧
      (∀ x, a + t.length ≤ x → m₁ x = m x) ∧ ∀ x, a + t.length ≤ x → m₂ x = m x := by
  obtain ⟨m₁, saveptr, rest, hfirst, hleft⟩ := nextToken_eq h hlen (Option.getD_some : _ = a)
  have hshort : rest.length < heapSize := Nat.lt_of_le_of_lt hleft.shorter hlen
  obtain ⟨m₂, saveptr', rest', hsecond, hleft'⟩ :=
    nextToken_eq hleft.text hshort (Option.getD_none : _ = saveptr)
  rw [hleft.words] at hsecond
  refine ⟨m₁, saveptr, m₂, saveptr', hfirst, hsecond, hleft.kept, fun x hx => ?_⟩
  calc m₂ x = m₁ x := hleft'.kept x (hleft.bound.le.trans hx)
    _ = m x := hleft.kept x hx

/-- The first two words, as `cmd_cp` and `cmd_mv` take them. -/
theorem bothTokens_eq (h : CStringAt m a t) (hlen : t.length < heapSize) :
    ∃ m', bothTokens m (some a) = some (twoWords t, m') ∧
      ∀ x, a + t.length ≤ x → m' x = m x := by
  obtain ⟨m₁, saveptr, m₂, saveptr', hfirst, hsecond, -, hkept⟩ := nextToken_twice h hlen
  refine ⟨m₂, ?_, hkept⟩
  simp only [bothTokens, Option.bind_some, hfirst, hsecond, Option.map_some, twoWords]
  rcases components 32 t with _ | ⟨first, _ | ⟨second, more⟩⟩ <;> rfl

/-- `cmd_bind` takes the same two words. -/
theorem bindTokens_eq (h : CStringAt m a t) (hlen : t.length < heapSize) :
    ∃ m', bindTokens m (some a) = some (twoWords t, m') ∧
      ∀ x, a + t.length ≤ x → m' x = m x := by
  obtain ⟨m₁, saveptr, m₂, saveptr', hfirst, hsecond, hkept₁, hkept₂⟩ := nextToken_twice h hlen
  simp only [bindTokens, Option.bind_some, hfirst, twoWords]
  rcases hwords : components 32 t with _ | ⟨first, words⟩
  · exact ⟨m₁, rfl, hkept₁⟩
  · rw [hwords, List.tail_cons] at hsecond
    refine ⟨m₂, ?_, hkept₂⟩
    simp only [List.head?_cons, hsecond, Option.map_some]
    rcases words with _ | ⟨second, more⟩ <;> rfl

theorem start_nul_iff (h : CStringAt m a t) : m a = 0 ↔ t = [] := by
  cases t with
  | nil => exact iff_of_true h.nul rfl
  | cons c t =>
      obtain ⟨hc, hne⟩ := h.head
      rw [hc]
      exact iff_of_false hne (List.cons_ne_nil _ _)

/-- `cmd_rm` finds its flag and its target. -/
theorem rmTokens_eq (h : CStringAt m a t) (hlen : t.length < heapSize) :
    ∃ m', rmTokens m (some a) = some (removalOf (some t), m') ∧
      ∀ x, a + t.length ≤ x → m' x = m x := by
  by_cases hempty : t = []
  · refine ⟨m, ?_, fun _ _ => rfl⟩
    rw [rmTokens, if_pos ((start_nul_iff h).mpr hempty), hempty]
    rfl
  have hstart : ¬m a = 0 := mt (start_nul_iff h).mp hempty
  obtain ⟨m₁, saveptr, m₂, saveptr', hfirst, hsecond, hkept₁, hkept₂⟩ := nextToken_twice h hlen
  simp only [rmTokens, if_neg hstart, hfirst, Option.bind_some, removalOf, Option.getD_some,
    if_neg hempty]
  rcases hwords : components 32 t with _ | ⟨first, words⟩
  · exact ⟨m₁, rfl, hkept₁⟩
  rw [hwords, List.tail_cons] at hsecond
  by_cases hflag : first = ascii "-r"
  · refine ⟨m₂, ?_, hkept₂⟩
    simp only [List.head?_cons, if_pos hflag, hsecond, Option.map_some]
    rcases words with _ | ⟨path, more⟩ <;> rfl
  · exact ⟨m₁, by simp only [List.head?_cons, if_neg hflag], hkept₁⟩

end Tokens

section Rounds

variable {m : Memory} {input : Nat} {line : Str} {k : Kernel}

/-- The tokens of `cp_args` are the two paths again. -/
theorem cpArgs_eq (k : Kernel) (line : Str) (hnul : 0 ∉ line) (hlen : line.length < heapSize) :
    cpArgs k line = cmdCp k (some line) := by
  have hline : CStringAt (store (fun _ => 0) 0 (line ++ [0])) 0 line := by
    refine ⟨hnul, fun j c hc => ?_, ?_⟩
    · obtain ⟨hj, rfl⟩ := List.getElem?_eq_some_iff.mp hc
      rw [store_at _ _ _ _ (by rw [List.length_append]; omega), List.getElem_append_left hj]
    · rw [store_at _ _ _ _ (by simp), List.getElem_append_right le_rfl]
      simp
  obtain ⟨m', hm', -⟩ := bothTokens_eq hline hlen
  rw [cpArgs, hm']
  rfl

/-- The paths of `cmd_mv` fit its buffer with a space between them. -/
theorem twoWords_line {args src dst : Str} (h : twoWords args = some (src, dst)) (hnul : 0 ∉ args) :
    0 ∉ src ++ ascii " " ++ dst ∧ (src ++ ascii " " ++ dst).length ≤ args.length := by
  rw [twoWords] at h
  split at h
  · rename_i more hwords
    cases h
    have hmem : ∀ w ∈ components 32 args, 0 ∉ w := fun w hw hzero =>
      hnul ((mem_components 32 hw).2 0 hzero)
    have hlen : (render 32 (components 32 args)).length ≤ args.length + 1 :=
      PathResolution.length_render_components args
    rw [hwords] at hmem hlen
    have hsrc := hmem src List.mem_cons_self
    have hdst := hmem dst (List.mem_cons_of_mem _ List.mem_cons_self)
    refine ⟨?_, ?_⟩
    · simp [hsrc, hdst, ascii]
    · have hspace : (ascii " ").length = 1 := rfl
      simp only [render, List.flatMap_cons, List.length_append, List.length_cons] at hlen ⊢
      omega
  · cases h

/-- A text in the buffer. -/
def InBuffer (m : Memory) (input a : Nat) (t : Str) : Prop :=
  CStringAt m a t ∧ a + t.length ≤ input + 255 ∧ t.length < 256

theorem InBuffer.short {a : Nat} {t : Str} (h : InBuffer m input a t) : t.length < heapSize :=
  h.2.2.trans (by decide)

/-- The command does what the texts say, and leaves the last byte of the buffer. -/
theorem callCommand_eq {args : Option Nat} {text : Option Str} (k : Kernel) (word : Str)
    (hcmd : InBuffer m input input word) (hargs : Option.Rel (InBuffer m input) args text) :
    ∃ m', callCommand m input args k (named word) =
        (runCommand k word text).map (fun (out, k) => (out, m', k)) ∧
      m' (input + 255) = m (input + 255) := by
  have htext : argText m args = some text := by
    cases hargs with
    | none => rfl
    | some h => exact argText_eq (.some h.1) fun t ht => Option.some.inj ht ▸ h.short
  have hword : stringWithin m heapSize input = some word := by
    have hcall := argText_eq (.some hcmd.1) fun t ht => Option.some.inj ht ▸ hcmd.short
    simpa [argText] using hcall
  cases hnamed : named word with
  | exit => exact ⟨m, by rw [runCommand, hnamed]; rfl, rfl⟩
  | echo => exact ⟨m, by simp [callCommand, runCommand, hnamed, htext], rfl⟩
  | pwd => exact ⟨m, by simp [callCommand, runCommand, hnamed, Function.comp_def], rfl⟩
  | cd => exact ⟨m, by simp [callCommand, runCommand, hnamed, htext], rfl⟩
  | ls => exact ⟨m, by simp [callCommand, runCommand, hnamed, htext], rfl⟩
  | touch => exact ⟨m, by simp [callCommand, runCommand, hnamed, htext], rfl⟩
  | mkdir => exact ⟨m, by simp [callCommand, runCommand, hnamed, htext], rfl⟩
  | unbind => exact ⟨m, by simp [callCommand, runCommand, hnamed, htext], rfl⟩
  | unknown => exact ⟨m, by simp [callCommand, runCommand, hnamed, hword], rfl⟩
  | cp =>
      cases hargs with
      | none => exact ⟨m, by simp [callCommand, runCommand, hnamed, bothTokens, cmdCp], rfl⟩
      | some hbuf =>
          obtain ⟨m', hm', hkept⟩ := bothTokens_eq hbuf.1 hbuf.short
          exact ⟨m', by simp [callCommand, runCommand, hnamed, hm', cmdCp], hkept _ hbuf.2.1⟩
  | mv =>
      cases hargs with
      | none => exact ⟨m, by simp [callCommand, runCommand, hnamed, bothTokens, cmdMv], rfl⟩
      | @some a t hbuf =>
          obtain ⟨m', hm', hkept⟩ := bothTokens_eq hbuf.1 hbuf.short
          have hmv : mvFiles (cpArgs k) k (twoWords t) =
              mvFiles (fun line => cmdCp k (some line)) k (twoWords t) := by
            cases hwords : twoWords t with
            | none => rfl
            | some paths =>
                obtain ⟨src, dst⟩ := paths
                obtain ⟨hnul, hlen⟩ := twoWords_line hwords hbuf.1.nul_free
                simp only [mvFiles, cpArgs_eq k _ hnul (hlen.trans_lt hbuf.short)]
          exact ⟨m', by simp [callCommand, runCommand, hnamed, hm', cmdMv, hmv], hkept _ hbuf.2.1⟩
  | rm =>
      cases hargs with
      | none => exact ⟨m, by simp [callCommand, runCommand, hnamed, rmTokens, cmdRm, removalOf], rfl⟩
      | some hbuf =>
          obtain ⟨m', hm', hkept⟩ := rmTokens_eq hbuf.1 hbuf.short
          exact ⟨m', by simp [callCommand, runCommand, hnamed, hm', cmdRm], hkept _ hbuf.2.1⟩
  | bind =>
      cases hargs with
      | none => exact ⟨m, by simp [callCommand, runCommand, hnamed, bindTokens, cmdBind], rfl⟩
      | some hbuf =>
          obtain ⟨m', hm', hkept⟩ := bindTokens_eq hbuf.1 hbuf.short
          exact ⟨m', by simp [callCommand, runCommand, hnamed, hm', cmdBind], hkept _ hbuf.2.1⟩

/-- The keys of a line are determined by what is left of them. -/
theorem LineKeys.unique {stream keys keys' rest : Str} (h : LineKeys stream keys rest)
    (h' : LineKeys stream keys' rest) : keys = keys' := by
  rcases h.ends with ⟨-, c, hc, hstream⟩ | ⟨-, hstream⟩ <;>
    rcases h'.ends with ⟨-, c', hc', hstream'⟩ | ⟨-, hstream'⟩
  · have heq : keys ++ [c] ++ rest = keys' ++ [c'] ++ rest := by
      rw [List.append_assoc, List.append_assoc]
      exact hstream.symm.trans hstream'
    exact (List.append_inj' (List.append_cancel_right heq) rfl).1
  · have heq : keys ++ [c] ++ rest = keys' ++ rest := by
      rw [List.append_assoc]
      exact hstream.symm.trans hstream'
    have hmem : c ∈ keys' := by
      rw [← List.append_cancel_right heq]
      exact List.mem_append_right _ List.mem_cons_self
    exact absurd hc (h'.plain c hmem)
  · have heq : keys ++ rest = keys' ++ [c'] ++ rest := by
      rw [List.append_assoc]
      exact hstream.symm.trans hstream'
    have hmem : c' ∈ keys := by
      rw [List.append_cancel_right heq]
      exact List.mem_append_right _ List.mem_cons_self
    exact absurd hc' (h.plain c' hmem)
  · exact List.append_cancel_right (hstream.symm.trans hstream')

/-- A line that is terminated is split where its text is. -/
theorem splitArgs_inBuffer {r : LineRead} (h : CStringAt r.mem input line)
    (hpos : r.pos = line.length) (hlen : line.length ≤ 255) :
    InBuffer (splitArgs r.mem input r.pos).1 input input (commandWord line) ∧
      Option.Rel (InBuffer (splitArgs r.mem input r.pos).1 input) (splitArgs r.mem input r.pos).2
        (commandArgs line) ∧
      (splitArgs r.mem input r.pos).1 (input + 255) = r.mem (input + 255) := by
  have hdispatch := dispatches_of_text h hpos
  rcases commandWord_split line with ⟨hword, hargs, hspace⟩ | ⟨args, hline, hargs, hspace⟩
  · have hsplit : splitArgs r.mem input r.pos = (r.mem, none) := by
      rw [hpos, splitArgs_none h hspace]
    have hwordLen : (commandWord line).length = line.length := congrArg List.length hword
    refine ⟨⟨hdispatch.cmd, by omega, by omega⟩, ?_, ?_⟩
    · rw [hsplit, hargs]
      exact .none
    · rw [hsplit]
  · have htext : CStringAt r.mem input (commandWord line ++ 32 :: args) := hline ▸ h
    have hsplit : splitArgs r.mem input r.pos =
        (Function.update r.mem (input + (commandWord line).length) 0,
          some (input + ((commandWord line).length + 1))) := by
      rw [hpos, hline, splitArgs_some htext hspace, ← hline]
    have hlineLen : line.length = (commandWord line).length + (args.length + 1) := by
      conv_lhs => rw [hline]
      rw [List.length_append, List.length_cons]
    have hrel := hdispatch.args
    refine ⟨⟨hdispatch.cmd, by omega, by omega⟩, ?_, ?_⟩
    · rw [hargs] at hrel ⊢
      rw [hsplit] at hrel ⊢
      cases hrel with
      | some hat => exact .some ⟨hat, by omega, by omega⟩
    · rw [hsplit]
      exact Function.update_of_ne (by omega) _ _

/-- A round is the line that is typed, whatever is in the buffer: only its last byte counts, and only
for a line that fills it. -/
theorem shellRound_eq {s : ShellState} {keys more : Str} (h : LineKeys s.stream keys more)
    (hlast : s.mem (input + 255) = 0 ∨ (editedLine keys).length < 255) :
    ∃ m', shellRound input s = (runLine s.kernel (editedLine keys)).map (fun (out, k) =>
        ⟨s.out ++ (prompt ++ lineEcho keys ++ out), m', k, more⟩) ∧
      m' (input + 255) = s.mem (input + 255) := by
  obtain ⟨r, hloop, hrest⟩ := h.leaves s.mem input
  obtain ⟨keys', hdone⟩ := inputLoop_done s.stream [] (.start s.mem input) .start hloop
  have hconsumed : LineKeys s.stream keys' r.rest := hdone.consumed
  rw [hrest] at hconsumed
  obtain rfl : keys' = keys := hconsumed.unique h
  have hpos : r.pos = (editedLine keys').length := hdone.pos
  have hout : r.out = lineEcho keys' := hdone.out
  have hle : (editedLine keys').length ≤ 255 := typed_length_le _
  have hbyte : r.mem (input + 255) = s.mem (input + 255) := hdone.held.outside _ (.inr le_rfl)
  have hnul : r.mem (input + (editedLine keys').length) = 0 := by
    rcases Nat.lt_or_eq_of_le hle with hlt | hfull
    · rw [← hpos]
      exact hdone.nul hlt
    · calc r.mem (input + (editedLine keys').length) = s.mem (input + 255) := by rw [hfull, hbyte]
        _ = 0 := hlast.resolve_right (by omega)
  have htext : CStringAt r.mem input (editedLine keys') :=
    ⟨editedLine_nul_free keys', hdone.held.chars, hnul⟩
  obtain ⟨hcmd, hargs, hsplit⟩ := splitArgs_inBuffer htext hpos hle
  obtain ⟨m', hcall, hkept⟩ := callCommand_eq s.kernel (commandWord (editedLine keys')) hcmd hargs
  refine ⟨m', ?_, ?_⟩
  · rw [shellRound, hloop, Option.bind_some, (dispatches_of_text htext hpos).command, hcall,
      Option.map_map, hout, hrest, runLine]
    rfl
  · calc m' (input + 255) = (splitArgs r.mem input r.pos).1 (input + 255) := hkept
      _ = r.mem (input + 255) := hsplit
      _ = s.mem (input + 255) := hbyte

end Rounds

/-- The kernel shell is a session of the lines that are typed. What the buffer held before, and what
`strtok_r` and longer lines have left in it, does not show: only a line that fills the buffer needs
its last byte to be a NUL, which no line changes. -/
theorem shell_runs_session (input : Nat) (rest : Str) (lines : List Str) (s : ShellState)
    (h : KeyLines rest s.stream lines)
    (hlast : s.mem (input + 255) = 0 ∨ ∀ keys ∈ lines, (editedLine keys).length < 255) :
    ∃ m', shell input lines.length s = (session s.kernel (lines.map editedLine)).map
      fun (outs, k) => ⟨s.out ++ transcript lines outs, m', k, rest⟩ := by
  induction lines generalizing s with
  | nil =>
      cases h
      refine ⟨s.mem, ?_⟩
      simp [shell, session, transcript]
  | cons keys lines ih =>
      cases h with
      | cons hline hlines =>
          have hlast' : s.mem (input + 255) = 0 ∨ (editedLine keys).length < 255 :=
            hlast.imp_right fun hshort => hshort keys List.mem_cons_self
          obtain ⟨m', hround, hkept⟩ := shellRound_eq hline hlast'
          cases hrun : runLine s.kernel (editedLine keys) with
          | none =>
              refine ⟨s.mem, ?_⟩
              simp only [List.length_cons, shell, hround, hrun, List.map_cons, session]
              rfl
          | some p =>
              obtain ⟨m'', hshell⟩ := ih
                ⟨s.out ++ (prompt ++ lineEcho keys ++ p.1), m', p.2, _⟩ hlines
                (hlast.imp (fun hzero => hkept.trans hzero) fun hshort keys' hkeys' =>
                  hshort keys' (List.mem_cons_of_mem _ hkeys'))
              refine ⟨m'', ?_⟩
              simp only [List.length_cons, shell, hround, hrun, List.map_cons, session,
                Option.map_some, Option.bind_some, hshell, Option.map_map]
              congr 1
              funext q
              simp [transcript]

/-- `pwd` and a return, over a buffer of other bytes. -/
theorem shell_runs_session_pwd : ∃ m',
    shell 0 1 ⟨[], fun _ => 120, nestedKernel, ascii "pwd" ++ [13]⟩ =
      some ⟨ascii "$ pwd\n/a/b\n", m', nestedKernel, []⟩ := by
  have hkeys : LineKeys (ascii "pwd" ++ [13]) (ascii "pwd") [] :=
    ⟨⟨by decide +kernel, by decide⟩, .inl ⟨by decide, 13, .inl rfl, rfl⟩⟩
  have hlines : KeyLines [] (ascii "pwd" ++ [13]) [ascii "pwd"] := .cons hkeys .nil
  have hword : commandWord (ascii "pwd") = ascii "pwd" := by decide
  have hnamed : named (ascii "pwd") = .pwd := by decide
  have hsession : session nestedKernel [ascii "pwd"] = some ([ascii "/a/b\n"], nestedKernel) := by
    simp only [session, runLine, runCommand, hword, hnamed]
    rfl
  have hout : transcript [ascii "pwd"] [ascii "/a/b\n"] = ascii "$ pwd\n/a/b\n" := by decide
  obtain ⟨m', hshell⟩ := shell_runs_session 0 [] [ascii "pwd"]
    ⟨[], fun _ => 120, nestedKernel, ascii "pwd" ++ [13]⟩ hlines
    (.inr fun keys hkeys => by rw [List.mem_singleton.mp hkeys]; decide)
  have hline : [ascii "pwd"].map editedLine = [ascii "pwd"] := by decide
  rw [hline, hsession] at hshell
  refine ⟨m', hshell.trans ?_⟩
  rw [← hout]
  rfl

end Chthon.Shell
