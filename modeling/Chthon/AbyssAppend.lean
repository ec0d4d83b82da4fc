import Chthon.AbyssBoot

/-! Where the record of a new entry goes. `create_file` and `abyssfs_mkdir` never compare its end
with the end of the block, and compute its length in eight bits; both stay inside the directory
exactly when the name is short enough and the room behind the last record suffices. -/

namespace Chthon

open ByteMemory PathText

theorem lastEntry_bound {m : Memory} {blockEnd : Nat} :
    ∀ {fuel entry : Nat} {prev : Option Nat} {p : Nat},
      lastEntry m blockEnd fuel entry prev = some p →
        prev = some p ∨ entry ≤ p ∧ p < blockEnd := by
  intro fuel
  induction fuel with
  | zero => exact fun h => Or.inl h
  | succ fuel ih =>
      intro entry prev p h
      rw [lastEntry] at h
      split_ifs at h with hwalk
      · rcases ih h with heq | hbound
        · rw [Option.some.injEq] at heq
          omega
        · omega
      · exact Or.inl h

theorem appendEntry_of_lt (m : Memory) {b : Nat} (hb : b < 64) (i : Nat) (name : Str) :
    appendEntry m b i name =
      match lastEntry m (b * 4096 + 4096) 4096 (b * 4096) none with
      | none => some (b * 4096, writeEntry m (b * 4096) i name)
      | some prev =>
          let entry := prev + (minRecLen (nameLen m prev)).toNat
          if entry > b * 4096 + 4096 then none
          else some (entry, writeEntry (fill (store m (prev + 5) [minRecLen (nameLen m prev)]) entry
            (b * 4096 + 4096 - entry) 0) entry i name) := by
  rw [appendEntry, getBlock_of_lt hb]
  rfl

/-- What the appending tail can do: start an empty block, or write behind the shrunk last record. -/
theorem appendEntry_cases {m m' : Memory} {b i e : Nat} {name : Str}
    (h : appendEntry m b i name = some (e, m')) :
    b < 64 ∧ b * 4096 ≤ e ∧ e ≤ b * 4096 + 4096 ∧
      ((e = b * 4096 ∧ m' = writeEntry m e i name) ∨
        ∃ prev, b * 4096 ≤ prev ∧ prev < b * 4096 + 4096 ∧ prev ≤ e ∧
          m' = writeEntry (fill (store m (prev + 5) [minRecLen (nameLen m prev)]) e
            (b * 4096 + 4096 - e) 0) e i name) := by
  by_cases hb : b < 64
  · rw [appendEntry_of_lt m hb] at h
    cases hlast : lastEntry m (b * 4096 + 4096) 4096 (b * 4096) none with
    | none =>
        simp only [hlast, Option.some.injEq, Prod.mk.injEq] at h
        obtain ⟨rfl, rfl⟩ := h
        exact ⟨hb, le_rfl, by omega, Or.inl ⟨rfl, rfl⟩⟩
    | some prev =>
        rcases lastEntry_bound hlast with heq | ⟨hlo, hhi⟩
        · cases heq
        · simp only [hlast] at h
          split_ifs at h with hend
          simp only [Option.some.injEq, Prod.mk.injEq] at h
          obtain ⟨rfl, rfl⟩ := h
          exact ⟨hb, by omega, by omega, Or.inr ⟨prev, hlo, hhi, by omega, rfl⟩⟩
  · rw [appendEntry, getBlock, if_pos (by simpa using hb)] at h
    cases h

section Written

variable {m : Memory} {e i : Nat} {name : Str}

theorem writeEntry_short (hname : name.length ≤ 255) :
    writeEntry m e i name = store m e (recordBytes i (UInt8.ofNat name.length)
      (minRecLen name.length) name) := by
  have hlen : (UInt8.ofNat name.length).toNat = name.length := by
    rw [UInt8.toNat_ofNat']
    omega
  rw [writeEntry, hlen, List.take_length]

theorem recordBytes_length (i : Nat) (nameLen recLen : UInt8) (name : Str) :
    (recordBytes i nameLen recLen name).length = 6 + name.length + 1 := by
  simp [recordBytes]
  omega

theorem writeEntry_outside {x : Nat} (hx : x < e ∨ e + (6 + name.length + 1) ≤ x) :
    writeEntry m e i name x = m x := by
  rw [writeEntry, store_outside]
  rw [recordBytes_length, List.length_take]
  omega

theorem writeEntry_recLen (hname : name.length ≤ 255) :
    writeEntry m e i name (e + 5) = minRecLen name.length := by
  rw [writeEntry_short hname, store_at _ _ _ 5 (by rw [recordBytes_length]; omega)]
  rfl

end Written

/-- The 8-bit record length covers the record only up to 245 bytes of name. -/
theorem minRecLen_covers {n : Nat} (hn : n ≤ 255) : 6 + n + 1 ≤ (minRecLen n).toNat ↔ n ≤ 245 := by
  have hall : ∀ k : Fin 256, 6 + k.val + 1 ≤ (minRecLen k.val).toNat ↔ k.val ≤ 245 := by
    decide +kernel
  exact hall ⟨n, by omega⟩

section Append

variable {m m' : Memory} {b i e : Nat} {name : Str}

theorem appendEntry_recLen (h : appendEntry m b i name = some (e, m')) (hname : name.length ≤ 255) :
    recLen m' e = (minRecLen name.length).toNat := by
  obtain ⟨_, _, _, ⟨_, rfl⟩ | ⟨_, _, _, _, rfl⟩⟩ := appendEntry_cases h <;>
    rw [recLen, writeEntry_recLen hname]

/-- Nothing in front of the block is written. -/
theorem appendEntry_below (h : appendEntry m b i name = some (e, m')) {x : Nat}
    (hx : x < b * 4096) : m' x = m x := by
  obtain ⟨_, hlo, _, ⟨rfl, rfl⟩ | ⟨prev, hprev, _, _, rfl⟩⟩ := appendEntry_cases h
  · exact writeEntry_outside (Or.inl hx)
  · rw [writeEntry_outside (Or.inl (by omega)), fill_outside _ _ (Or.inl (by omega)),
      store_of_lt _ _ (by omega)]

/-- The whole record lies in block `b`, and its length field covers it. -/
structure RecordInside (m' : Memory) (b i e : Nat) (name : Str) : Prop where
  start : b * 4096 ≤ e
  finish : e + (6 + name.length + 1) ≤ b * 4096 + 4096
  record : load m' e (6 + name.length + 1) =
    recordBytes i (UInt8.ofNat name.length) (m' (e + 5)) name
  covered : 6 + name.length + 1 ≤ recLen m' e

/-- The condition on the directory a record is appended to. -/
def Fits (m : Memory) (b : Nat) (name : Str) : Prop :=
  name.length ≤ 245 ∧
    ∃ e, appendPosition m b = some e ∧ e + (6 + name.length + 1) ≤ b * 4096 + 4096

theorem appendEntry_of_position (hpos : appendPosition m b = some e) (i : Nat) (name : Str)
    (he : e ≤ b * 4096 + 4096) : ∃ m', appendEntry m b i name = some (e, m') := by
  rw [appendPosition, Option.map_eq_some_iff] at hpos
  obtain ⟨start, hstart, hpos⟩ := hpos
  have hb : b < 64 := by
    rw [getBlock] at hstart
    split_ifs at hstart with hge
    simpa using hge
  rw [getBlock_of_lt hb, Option.some.injEq] at hstart
  subst hstart
  simp only [blockSize_eq] at hpos
  rw [appendEntry_of_lt m hb]
  cases hlast : lastEntry m (b * 4096 + 4096) 4096 (b * 4096) none with
  | none =>
      simp only [hlast] at hpos
      subst hpos
      exact ⟨_, rfl⟩
  | some prev =>
      simp only [hlast] at hpos
      subst hpos
      simp only
      rw [if_neg (by omega)]
      exact ⟨_, rfl⟩

theorem appendEntry_inside (hname : name.length ≤ 255) :
    (∃ e m', appendEntry m b i name = some (e, m') ∧ RecordInside m' b i e name ∧
      OnlyBlock m m' b) ↔ Fits m b name := by
  constructor
  · rintro ⟨e, m', happend, hinside, _⟩
    have hcovered := hinside.covered
    rw [appendEntry_recLen happend hname, minRecLen_covers hname] at hcovered
    exact ⟨hcovered, e, appendEntry_position happend, hinside.finish⟩
  · rintro ⟨hshort, e, hpos, hroom⟩
    obtain ⟨m', happend⟩ := appendEntry_of_position hpos i name (by omega)
    obtain ⟨_, hlo, _, hcases⟩ := appendEntry_cases happend
    refine ⟨e, m', happend, ⟨hlo, hroom, ?_, ?_⟩, ?_⟩
    · rcases hcases with ⟨_, rfl⟩ | ⟨_, _, _, _, rfl⟩ <;>
        rw [writeEntry_recLen hname, writeEntry_short hname, ← recordBytes_length, load_store]
    · rw [appendEntry_recLen happend hname]
      exact (minRecLen_covers hname).mpr hshort
    · rintro x (hx | hx)
      · exact appendEntry_below happend hx
      · rcases hcases with ⟨_, rfl⟩ | ⟨prev, _, _, hprev, rfl⟩
        · exact writeEntry_outside (Or.inr (by omega))
        · rw [writeEntry_outside (Or.inr (by omega)), fill_outside _ _ (Or.inr (by omega)),
            store_of_ge _ _ (by simp; omega)]

end Append

/-! `create_file`. -/

/-- `create_file` keeps to its directory: -1 with nothing changed, or a whole record in the block
of the parent, at the place of the local `entry`, and no other byte written. -/
def CreateInside (s : Abyssfs) (cwd : Option Str) (name : Str) (i : Nat) : Prop :=
  createFile s cwd name i = some (-1, s) ∨
    ∃ dirInode filename b e m', createParent s.mem cwd name = some (some (dirInode, filename)) ∧
      directoryBlock s.mem dirInode = some b ∧
      appendEntry s.mem b i filename = some (e, m') ∧
      createFile s cwd name i = some (0, { s with mem := m' }) ∧
      RecordInside m' b i e filename ∧ OnlyBlock s.mem m' b

/-- There is no parent to append to, or the record fits it. -/
def CreateFits (s : Abyssfs) (cwd : Option Str) (name : Str) : Prop :=
  createParent s.mem cwd name = some none ∨
    ∃ dirInode filename, createParent s.mem cwd name = some (some (dirInode, filename)) ∧
      (directoryBlock s.mem dirInode = none ∨
        ∃ b, directoryBlock s.mem dirInode = some b ∧ Fits s.mem b filename)

theorem splitLast_length {path d base : Str} (h : splitLast slash path = some (d, base)) :
    base.length ≤ path.length := by
  rw [(eq_of_splitLast slash h).1, List.length_append, List.length_cons]
  omega

theorem createParent_length {m : Memory} {cwd : Option Str} {name filename : Str} {dirInode : Nat}
    (h : createParent m cwd name = some (some (dirInode, filename))) (hname : name.length ≤ 255) :
    filename.length ≤ 255 := by
  unfold createParent at h
  rw [maxPath, List.take_of_length_le hname] at h
  split at h
  · rename_i d base hsplit
    have hbase := splitLast_length hsplit
    split_ifs at h with hd
    · cases h
      omega
    · simp only [Option.map_eq_some_iff, Prod.mk.injEq] at h
      obtain ⟨_, _, _, _, _, rfl⟩ := h
      omega
  · split at h
    · cases h
    · split_ifs at h
      · cases h
        exact hname
      · simp only [Option.map_eq_some_iff, Prod.mk.injEq] at h
        obtain ⟨_, _, _, _, _, rfl⟩ := h
        exact hname

theorem createInside_iff (s : Abyssfs) (cwd : Option Str) {name : Str} (i : Nat)
    (hname : name.length ≤ 255) : CreateInside s cwd name i ↔ CreateFits s cwd name := by
  rw [CreateInside, CreateFits]
  cases hparent : createParent s.mem cwd name with
  | none => simp [createFile, hparent]
  | some found =>
      cases found with
      | none => simp [createFile, hparent]
      | some target =>
          obtain ⟨dirInode, filename⟩ := target
          have hfile := createParent_length hparent hname
          cases hblock : directoryBlock s.mem dirInode with
          | none => simp [createFile, hparent, hblock]
          | some b =>
              have hiff := appendEntry_inside (m := s.mem) (b := b) (i := i) hfile
              simp only [createFile, hparent, hblock]
              constructor
              · rintro (hfail | ⟨_, _, _, e, m', ⟨⟩, hb, happend, _, hinside, honly⟩)
                · rw [Option.map_eq_some_iff] at hfail
                  obtain ⟨_, _, hfail⟩ := hfail
                  simp at hfail
                · rw [hblock] at hb
                  cases hb
                  exact Or.inr ⟨dirInode, filename, rfl, Or.inr ⟨b, hblock,
                    hiff.mp ⟨e, m', happend, hinside, honly⟩⟩⟩
              · rintro (⟨⟨⟩⟩ | ⟨_, _, ⟨⟩, hnone | ⟨_, hb, hfits⟩⟩)
                · rw [hblock] at hnone
                  cases hnone
                · rw [hblock] at hb
                  cases hb
                  obtain ⟨e, m', happend, hinside, honly⟩ := hiff.mpr hfits
                  exact Or.inr ⟨dirInode, filename, b, e, m', rfl, hblock, happend,
                    by simp [happend], hinside, honly⟩

/-! `abyssfs_mkdir`. -/

/-- The memory in which `abyssfs_mkdir` turns to its parent, the parent's block and the base name;
`some none` is an exit with -1 before that. -/
def mkdirTarget (s : Abyssfs) (path : Str) : Option (Option (Memory × Nat × Str)) :=
  match mkdirParent s.mem path with
  | none => none
  | some none => some none
  | some (some (parent, parentNum, basename)) =>
      if (allocInode s).1 = 0 ∨ (allocBlock s).1 = 0 then some none
      else
        let m := preparedDir s.mem (allocInode s).1 (allocBlock s).1 parentNum
        some ((directoryBlock m parent).map (m, ·, basename))

/-- The bytes of the new directory itself: its inode and its block. -/
def NewDirByte (s : Abyssfs) (x : Nat) : Prop :=
  (inodeAddr (allocInode s).1 ≤ x ∧ x < inodeAddr (allocInode s).1 + 64) ∨
    ((allocBlock s).1 * 4096 ≤ x ∧ x < (allocBlock s).1 * 4096 + 4096)

/-- `abyssfs_mkdir` keeps to its directories: -1 with nothing changed but the inode and block it
allocated, or a whole record in the block of the parent and no further byte written. -/
def MkdirInside (s : Abyssfs) (path : Str) : Prop :=
  (∃ s', abyssfsMkdir s path = some (-1, s') ∧ ∀ x, ¬NewDirByte s x → s'.mem x = s.mem x) ∨
    ∃ m b basename e s', mkdirTarget s path = some (some (m, b, basename)) ∧
      appendEntry m b (allocInode s).1 basename = some (e, s'.mem) ∧
      abyssfsMkdir s path = some (0, s') ∧ RecordInside s'.mem b (allocInode s).1 e basename ∧
      ∀ x, (x < b * 4096 ∨ b * 4096 + 4096 ≤ x) → ¬NewDirByte s x → s'.mem x = s.mem x

/-- There is no parent to append to, or the record fits it. -/
def MkdirFits (s : Abyssfs) (path : Str) : Prop :=
  mkdirTarget s path = some none ∨
    ∃ m b basename, mkdirTarget s path = some (some (m, b, basename)) ∧ Fits m b basename

theorem mkdirParent_length {m : Memory} {path basename : Str} {parent parentNum : Nat}
    (h : mkdirParent m path = some (some (parent, parentNum, basename))) :
    basename.length ≤ path.length := by
  unfold mkdirParent at h
  split_ifs at h with hlen
  split at h
  · cases h
  · rename_i d base hsplit
    have hbase := splitLast_length hsplit
    split_ifs at h with hempty hroot
    · cases h
    · cases h
      exact hbase
    · simp only [Option.map_eq_some_iff, Prod.mk.injEq] at h
      obtain ⟨_, _, _, _, _, _, rfl⟩ := h
      exact hbase

theorem allocBlock_fst (s : Abyssfs) (m : Memory) :
    (allocBlock { s with mem := m }).1 = (allocBlock s).1 := by
  rw [allocBlock, allocBlock]
  cases (List.range' firstDataBlock (totalBlocks - firstDataBlock)).find?
    fun i => s.blockBitmap &&& BitVec.twoPow 64 i = 0 <;> rfl

/-- What a call of `abyssfs_mkdir` that returns has done. -/
theorem abyssfsMkdir_cases {s s' : Abyssfs} {path : Str} {result : Int}
    (h : abyssfsMkdir s path = some (result, s')) :
    (mkdirParent s.mem path = some none ∧ result = -1 ∧ s' = s) ∨
    ∃ p num base, mkdirParent s.mem path = some (some (p, num, base)) ∧
      ((allocInode s = (0, s) ∧ result = -1 ∧ s' = s) ∨
      ∃ i, 1 ≤ i ∧ i < 512 ∧ mode s.mem (inodeAddr i) = 0 ∧
        allocInode s = (i, { s with mem := freshInode s.mem i }) ∧
        ((result = -1 ∧ s' = { s with mem := freshInode s.mem i }) ∨
        ∃ b, 9 ≤ b ∧ b < 64 ∧ s.used b = false ∧ (allocBlock s).1 = b ∧
          ((directoryBlock (preparedDir s.mem i b num) p = none ∧ result = -1 ∧
            s' = { s.take b with mem := preparedDir s.mem i b num }) ∨
          ∃ pb e m', directoryBlock (preparedDir s.mem i b num) p = some pb ∧
            mkdirTarget s path = some (some (preparedDir s.mem i b num, pb, base)) ∧
            appendEntry (preparedDir s.mem i b num) pb i base = some (e, m') ∧ result = 0 ∧
            s' = { s.take b with mem := m' }))) := by
  cases hparent : mkdirParent s.mem path with
  | none => simp [abyssfsMkdir, hparent] at h
  | some found =>
      cases found with
      | none =>
          simp only [abyssfsMkdir, hparent, Option.some.injEq, Prod.mk.injEq] at h
          exact Or.inl ⟨rfl, h.1.symm, h.2.symm⟩
      | some target =>
          obtain ⟨p, num, base⟩ := target
          refine Or.inr ⟨p, num, base, rfl, ?_⟩
          rcases allocInode_cases s with ⟨halloc, _⟩ | ⟨i, hi1, hi, hfree, halloc⟩
          · simp only [abyssfsMkdir, hparent, halloc, Option.some.injEq, Prod.mk.injEq] at h
            exact Or.inl ⟨halloc, h.1.symm, h.2.symm⟩
          refine Or.inr ⟨i, hi1, hi, hfree, halloc, ?_⟩
          have hfst := allocBlock_fst s (freshInode s.mem i)
          rcases allocBlock_cases { s with mem := freshInode s.mem i } with
            ⟨hblock, _⟩ | ⟨b, hb9, hb64, hunused, hblock⟩
          · have hcall : abyssfsMkdir s path = some (-1, { s with mem := freshInode s.mem i }) := by
              obtain ⟨i, rfl⟩ : ∃ j, i = j + 1 := ⟨i - 1, by omega⟩
              simp [abyssfsMkdir, hparent, halloc, hblock]
            rw [hcall, Option.some.injEq, Prod.mk.injEq] at h
            exact Or.inl ⟨h.1.symm, h.2.symm⟩
          · have hb : (allocBlock s).1 = b := by rw [← hfst, hblock]
            refine Or.inr ⟨b, hb9, hb64, hunused, hb, ?_⟩
            rw [abyssfsMkdir_of_alloc hparent halloc hi1 hblock hb9] at h
            cases hdir : directoryBlock (preparedDir s.mem i b num) p with
            | none =>
                simp only [hdir, Option.some.injEq, Prod.mk.injEq] at h
                exact Or.inl ⟨rfl, h.1.symm, h.2.symm⟩
            | some pb =>
                simp only [hdir, Option.map_eq_some_iff, Prod.mk.injEq] at h
                obtain ⟨⟨e, m'⟩, happend, rfl, rfl⟩ := h
                have htarget : mkdirTarget s path =
                    some (some (preparedDir s.mem i b num, pb, base)) := by
                  simp only [mkdirTarget, hparent, halloc, hb]
                  rw [if_neg (by omega), hdir]
                  rfl
                exact Or.inr ⟨pb, e, m', rfl, htarget, happend, rfl, rfl⟩

/-- The calls that get as far as the parent's block, and those that do not. -/
theorem abyssfsMkdir_target (s : Abyssfs) (path : Str) :
    (mkdirTarget s path = none ∧ abyssfsMkdir s path = none) ∨
    (mkdirTarget s path = some none ∧ ∃ s', abyssfsMkdir s path = some (-1, s') ∧
      ∀ x, ¬NewDirByte s x → s'.mem x = s.mem x) ∨
    ∃ m b basename, mkdirTarget s path = some (some (m, b, basename)) ∧
      basename.length ≤ path.length ∧ (∀ x, ¬NewDirByte s x → m x = s.mem x) ∧
      abyssfsMkdir s path = (appendEntry m b (allocInode s).1 basename).map fun (_, m') =>
        (0, { s.take (allocBlock s).1 with mem := m' }) := by
  rw [mkdirTarget]
  cases hparent : mkdirParent s.mem path with
  | none => exact Or.inl ⟨rfl, by simp [abyssfsMkdir, hparent]⟩
  | some found =>
      cases found with
      | none => exact Or.inr (Or.inl ⟨rfl, s, by simp [abyssfsMkdir, hparent], fun _ _ => rfl⟩)
      | some target =>
          obtain ⟨parent, parentNum, basename⟩ := target
          apply Or.inr
          rcases allocInode_cases s with ⟨halloc, _⟩ | ⟨i, hi1, hi, _, halloc⟩
          · exact Or.inl ⟨by simp [halloc], s, by simp [abyssfsMkdir, hparent, halloc],
              fun _ _ => rfl⟩
          have hfst := allocBlock_fst s (freshInode s.mem i)
          rcases allocBlock_cases { s with mem := freshInode s.mem i } with
            ⟨hblock, _⟩ | ⟨b, hb9, hb64, _, hblock⟩
          · rw [hblock] at hfst
            refine Or.inl ⟨by simp [← hfst], { s with mem := freshInode s.mem i }, ?_, ?_⟩
            · obtain ⟨i, rfl⟩ : ∃ j, i = j + 1 := ⟨i - 1, by omega⟩
              simp [abyssfsMkdir, hparent, halloc, hblock]
            · intro x hx
              simp only [NewDirByte, halloc] at hx
              exact freshInode_outside _ (by omega)
          · rw [hblock] at hfst
            have hb : (allocBlock s).1 = b := hfst.symm
            have hcall := abyssfsMkdir_of_alloc hparent halloc hi1 hblock hb9
            have hmem : ∀ x, ¬NewDirByte s x → preparedDir s.mem i b parentNum x = s.mem x := by
              intro x hx
              simp only [NewDirByte, halloc, hb] at hx
              exact preparedDir_outside _ _ (by omega) (by omega)
            simp only [halloc, hb]
            rw [if_neg (by omega)]
            cases hdir : directoryBlock (preparedDir s.mem i b parentNum) parent with
            | none =>
                rw [hdir] at hcall
                exact Or.inl ⟨rfl, _, hcall, hmem⟩
            | some parentBlock =>
                rw [hdir] at hcall
                exact Or.inr ⟨_, parentBlock, basename, rfl, mkdirParent_length hparent, hmem, hcall⟩

theorem mkdirInside_iff (s : Abyssfs) {path : Str} (hpath : path.length ≤ 255) :
    MkdirInside s path ↔ MkdirFits s path := by
  rw [MkdirInside, MkdirFits]
  rcases abyssfsMkdir_target s path with ⟨htarget, hcall⟩ | ⟨htarget, s', hcall, hmem⟩ |
    ⟨m, b, basename, htarget, hlen, hmem, hcall⟩
  · simp [htarget, hcall]
  · rw [htarget, hcall]
    simp only [Option.some.injEq, Prod.mk.injEq, true_and, reduceCtorEq, true_or, iff_true]
    exact Or.inl ⟨s', rfl, hmem⟩
  · have hiff := appendEntry_inside (m := m) (b := b) (i := (allocInode s).1) (hlen.trans hpath)
    rw [htarget]
    constructor
    · rintro (⟨s', hfail, _⟩ | ⟨_, _, _, e, s', ⟨⟩, happend, _, hinside, _⟩)
      · rw [hcall, Option.map_eq_some_iff] at hfail
        obtain ⟨_, _, hfail⟩ := hfail
        simp at hfail
      · refine Or.inr ⟨m, b, basename, rfl, ?_⟩
        have hcovered := hinside.covered
        rw [appendEntry_recLen happend (hlen.trans hpath),
          minRecLen_covers (hlen.trans hpath)] at hcovered
        exact ⟨hcovered, e, appendEntry_position happend, hinside.finish⟩
    · rintro (⟨⟨⟩⟩ | ⟨_, _, _, ⟨⟩, hfits⟩)
      obtain ⟨e, m', happend, hinside, honly⟩ := hiff.mpr hfits
      refine Or.inr ⟨m, b, basename, e, { s.take (allocBlock s).1 with mem := m' }, rfl, happend,
        by rw [hcall, happend]; rfl, hinside, ?_⟩
      intro x hx hnew
      exact (honly x hx).trans (hmem x hnew)

/-! Both calls. -/

/-- For every state and every name the VFS admits, the two calls keep to the directory exactly when
they give up before the append, or the name has at most 245 bytes and the record ends inside the
parent's block. -/
theorem append_stays_inside_iff (s : Abyssfs) :
    (∀ (cwd : Option Str) (name : Str) (i : Nat), name.length ≤ 255 →
      (CreateInside s cwd name i ↔ CreateFits s cwd name)) ∧
    ∀ path : Str, path.length ≤ 255 → (MkdirInside s path ↔ MkdirFits s path) :=
  ⟨fun cwd _ i hname => createInside_iff s cwd i hname, fun _ hpath => mkdirInside_iff s hpath⟩

/-- The state `create_file` is called in by the first `abyssfs_create`. -/
def firstCreate : Abyssfs := (allocInode (bootVolume blankFs).fs).2

theorem firstCreate_fits : CreateFits firstCreate (some (ascii "/")) (ascii "readme") := by
  refine Or.inr ⟨4160, ascii "readme", by decide +kernel, Or.inr ⟨9, by decide +kernel, ?_⟩⟩
  exact ⟨by decide, 36884, by decide +kernel, by decide⟩

theorem append_stays_inside_readme :
    CreateInside firstCreate (some (ascii "/")) (ascii "readme") 2 ∧
      MkdirInside (bootVolume blankFs).fs (ascii "/bin") := by
  refine ⟨((append_stays_inside_iff _).1 _ _ _ (by decide)).mpr firstCreate_fits,
    ((append_stays_inside_iff _).2 _ (by decide)).mpr (Or.inr ?_)⟩
  refine ⟨preparedDir (bootVolume blankFs).fs.mem 2 10 1, 9, ascii "bin", ?_, by decide, 36884,
    by decide +kernel, by decide⟩
  have hparent : mkdirParent (bootVolume blankFs).fs.mem (ascii "/bin") =
      some (some (rootInode, 1, ascii "bin")) := by decide +kernel
  have hinode : (allocInode (bootVolume blankFs).fs).1 = 2 := by decide +kernel
  have hblock : (allocBlock (bootVolume blankFs).fs).1 = 10 := by decide +kernel
  have hdir : directoryBlock (preparedDir (bootVolume blankFs).fs.mem 2 10 1) rootInode = some 9 := by
    decide +kernel
  simp only [mkdirTarget, hparent, hinode, hblock]
  rw [if_neg (by decide), hdir]
  rfl

/-- A name of 250 bytes in the fresh root gets a record length of 4 for its 257 bytes. -/
theorem append_long_name_outside :
    ¬CreateInside firstCreate (some (ascii "/")) (List.replicate 250 98) 2 ∧
      (createFile firstCreate (some (ascii "/")) (List.replicate 250 98) 2).map
        (fun (result, s) => (result, recLen s.mem 36884)) = some (0, 4) := by
  have hparent : createParent firstCreate.mem (some (ascii "/")) (List.replicate 250 98) =
      some (some (rootInode, List.replicate 250 98)) := by decide +kernel
  have hdir : directoryBlock firstCreate.mem rootInode = some 9 := by decide +kernel
  refine ⟨?_, by decide +kernel⟩
  rw [createInside_iff _ _ _ (by decide +kernel), CreateFits, hparent]
  rintro (⟨⟨⟩⟩ | ⟨_, _, heq, hnone | ⟨_, _, hshort, _⟩⟩)
  · simp only [Option.some.injEq, Prod.mk.injEq] at heq
    rw [← heq.1, hdir] at hnone
    cases hnone
  · simp only [Option.some.injEq, Prod.mk.injEq] at heq
    rw [← heq.2, List.length_replicate] at hshort
    omega

end Chthon
