import Chthon.SystemCalls
import Chthon.UserShellCommands

/-! What the requests of the user shell are for: a service of the kernel on texts, without the messages
and the memory they travel through. No service looks at the memory of programs, and a message that is
not refused gets the service that it carries the request for. -/

namespace Chthon

open ByteMemory UserShell

/-- The kernel with other memory of programs. -/
def Kernel.withUser (k : Kernel) (user : Memory) : Kernel := { k with user := user }

section Memory

variable (k : Kernel) (u : Memory) (path : Str) (fd : Int)

@[simp] theorem withUser_heapPos : (k.withUser u).heapPos = k.heapPos := rfl
@[simp] theorem withUser_nextFd : (k.withUser u).nextFd = k.nextFd := rfl
@[simp] theorem withUser_current : (k.withUser u).current = k.current := rfl
@[simp] theorem withUser_currentProcess : (k.withUser u).currentProcess = k.currentProcess := rfl
@[simp] theorem withUser_procs : (k.withUser u).procs = k.procs := rfl
@[simp] theorem openRoute_withUser : openRoute (k.withUser u) path = openRoute k path := rfl
@[simp] theorem createRoute_withUser : createRoute (k.withUser u) path = createRoute k path := rfl
@[simp] theorem unlinkRoute_withUser : unlinkRoute (k.withUser u) path = unlinkRoute k path := rfl
@[simp] theorem mkdirRoute_withUser : mkdirRoute (k.withUser u) path = mkdirRoute k path := rfl
@[simp] theorem chdirPath_withUser : chdirPath (k.withUser u) path = chdirPath k path := rfl
@[simp] theorem getFile_withUser : getFile (k.withUser u) fd = getFile k fd := rfl

theorem allocFd_withUser (file : VfsFile) : allocFd (k.withUser u) file =
    ((allocFd k file).1, (allocFd k file).2.withUser u) := by
  rw [allocFd, allocFd, withUser_nextFd]
  by_cases hfull : k.nextFd ≥ maxFd
  · rw [if_pos hfull, if_pos hfull]
  · rw [if_neg hfull, if_neg hfull]
    rfl

theorem vfsOpen_withUser : vfsOpen (k.withUser u) path =
    (vfsOpen k path).map fun answer => (answer.1, answer.2.withUser u) := by
  rw [vfsOpen, openRoute_withUser, vfsOpen]
  rcases openRoute k path with _ | ⟨_ | fs, resolved⟩
  · rfl
  · rfl
  · have hopen : fsOpen (k.withUser u) resolved fs =
        ((fsOpen k resolved fs).1, (fsOpen k resolved fs).2.withUser u) := by
      cases fs <;> rfl
    dsimp only
    rw [hopen]
    rcases fsOpen k resolved fs with ⟨_ | file, k₁⟩
    · rfl
    · exact congrArg some (allocFd_withUser k₁ u file)

theorem vfsCreate_withUser : vfsCreate (k.withUser u) path =
    (vfsCreate k path).map fun answer => (answer.1, answer.2.withUser u) := by
  rw [vfsCreate, createRoute_withUser, vfsCreate]
  rcases createRoute k path with _ | ⟨_ | fs, full⟩
  · rfl
  · rfl
  · have hcreate : fsCreate (k.withUser u) full fs =
        (fsCreate k full fs).map fun answer => (answer.1, answer.2.withUser u) := by
      cases fs <;> simp only [fsCreate, Option.map_map] <;> rfl
    dsimp only
    rw [hcreate]
    rcases fsCreate k full fs with _ | ⟨_ | file, k₁⟩
    · rfl
    · rfl
    · exact congrArg some (allocFd_withUser k₁ u file)

theorem vfsClose_withUser : vfsClose (k.withUser u) fd =
    ((vfsClose k fd).1, (vfsClose k fd).2.withUser u) := by
  rw [vfsClose, getFile_withUser, vfsClose]
  cases getFile k fd <;> rfl

theorem vfsRead_withUser (count : Nat) : vfsRead (k.withUser u) fd count =
    (vfsRead k fd count).map fun answer => (answer.1, answer.2.withUser u) := by
  rw [vfsRead, getFile_withUser, vfsRead]
  rcases getFile k fd with _ | file
  · rfl
  · cases hops : file.fOps <;> simp only [hops, Option.map_map] <;> rfl

theorem vfsWrite_withUser (buf : Str) : vfsWrite (k.withUser u) fd buf =
    (vfsWrite k fd buf).map fun answer => (answer.1, answer.2.withUser u) := by
  rw [vfsWrite, getFile_withUser, vfsWrite]
  rcases getFile k fd with _ | file
  · rfl
  · cases hops : file.fOps <;> simp only [hops, Option.map_map] <;> rfl

theorem vfsUnlink_withUser : vfsUnlink (k.withUser u) path =
    (vfsUnlink k path).map fun answer => (answer.1, answer.2.withUser u) := by
  rw [vfsUnlink, unlinkRoute_withUser, vfsUnlink]
  rcases unlinkRoute k path with _ | ⟨_ | fs, given⟩
  · rfl
  · rfl
  · cases fs
    · rfl
    · simp only [fsUnlink, Option.map_map]
      rfl

theorem vfsMkdir_withUser : vfsMkdir (k.withUser u) path =
    (vfsMkdir k path).map fun answer => (answer.1, answer.2.withUser u) := by
  rw [vfsMkdir, mkdirRoute_withUser, vfsMkdir]
  rcases mkdirRoute k path with _ | ⟨_ | fs, full⟩
  · rfl
  · rfl
  · cases fs
    · rfl
    · simp only [fsMkdir, Option.map_map]
      rfl

theorem resolveNamespacePath_withUser : resolveNamespacePath (k.withUser u) path =
    (resolveNamespacePath k path).map fun answer => (answer.1, answer.2.withUser u) := by
  simp only [resolveNamespacePath, withUser_currentProcess, withUser_heapPos]
  rcases k.currentProcess with _ | p
  · rfl
  · dsimp only
    split
    · rfl
    · rcases kalloc k.heapPos maxPath with ⟨_ | addr, heapPos⟩
      · rfl
      · dsimp only
        split_ifs <;> rfl

theorem vfsReadDir_withUser (maxEntries : Nat) : vfsReadDir (k.withUser u) path maxEntries =
    (vfsReadDir k path maxEntries).map fun answer => (answer.1, answer.2.withUser u) := by
  rw [vfsReadDir, resolveNamespacePath_withUser, vfsReadDir]
  rcases resolveNamespacePath k path with _ | ⟨resolved, k₁⟩
  · rfl
  · simp only [Option.map_some]
    rcases findMount resolved with _ | fs
    · rfl
    · have hlist : fsReadDir (k₁.withUser u) resolved maxEntries fs =
          fsReadDir k₁ resolved maxEntries fs := by cases fs <;> rfl
      simp only [hlist, Option.map_map]
      rfl

theorem bind_withUser (old new : Str) (flags : Int) : bind (k.withUser u) old new flags =
    (bind k old new flags).map fun answer => (answer.1, answer.2.withUser u) := by
  rw [bind, vfsReadDir_withUser, bind]
  rcases vfsReadDir k old 1 with _ | ⟨_ | entries, k₁⟩
  · rfl
  · rfl
  · simp only [Option.map_some, vfsReadDir_withUser]
    rcases vfsReadDir k₁ new 1 with _ | ⟨_ | entries', k₂⟩
    · rfl
    · rfl
    · simp only [Option.map_some, withUser_heapPos, withUser_current]
      rcases createNamespace k₂.heapPos old new flags with ⟨_ | ns, heapPos⟩
      · rfl
      · dsimp only
        rcases hcur : k₂.current with _ | p
        · rfl
        · rfl

theorem unbind_withUser : unbind (k.withUser u) path =
    ((unbind k path).1, (unbind k path).2.withUser u) := by
  rw [unbind, withUser_current, unbind]
  cases k.current with
  | none => rfl
  | some p =>
      dsimp only
      rw [withUser_procs]
      split_ifs <;> rfl

theorem copyLoop_withUser (src dst : Int) (fuel : Nat) : ∀ k : Kernel,
    copyLoop src dst fuel (k.withUser u) =
      (copyLoop src dst fuel k).map fun answer => (answer.1, answer.2.withUser u) := by
  induction fuel with
  | zero => exact fun k => rfl
  | succ fuel ih =>
      intro k
      rw [copyLoop, vfsRead_withUser, copyLoop]
      rcases vfsRead k src 1024 with _ | ⟨_ | bytes, k₁⟩
      · rfl
      · rfl
      · simp only [Option.map_some]
        split_ifs
        · rfl
        · simp only [vfsWrite_withUser]
          rcases vfsWrite k₁ dst bytes with _ | ⟨written, k₂⟩
          · rfl
          · simp only [Option.map_some, ih]
            split_ifs <;> rfl

theorem copyFile_withUser (src dst : Str) : copyFile (k.withUser u) src dst =
    (copyFile k src dst).map fun answer => (answer.1, answer.2.withUser u) := by
  rw [copyFile, vfsOpen_withUser, copyFile]
  rcases vfsOpen k src with _ | ⟨srcFd, k₁⟩
  · rfl
  · simp only [Option.map_some]
    split_ifs
    · rfl
    · simp only [vfsCreate_withUser]
      rcases vfsCreate k₁ dst with _ | ⟨dstFd, k₂⟩
      · rfl
      · simp only [Option.map_some, vfsClose_withUser, copyLoop_withUser, Option.map_map]
        split_ifs
        · rfl
        · simp only [Option.map_map, Function.comp_def, vfsClose_withUser]

theorem copyMessage_withUser (src dst : Str) : copyMessage (k.withUser u) src dst =
    (copyMessage k src dst).map fun answer => (answer.1, answer.2.withUser u) := by
  rw [copyMessage, copyFile_withUser, copyMessage, Option.map_map, Option.map_map]
  rfl

theorem moveMessage_withUser (src dst : Str) : moveMessage (k.withUser u) src dst =
    (moveMessage k src dst).map fun answer => (answer.1, answer.2.withUser u) := by
  rw [moveMessage, copyFile_withUser, moveMessage]
  rcases copyFile k src dst with _ | ⟨_ | _ | _, k₁⟩
  · rfl
  · rfl
  · simp only [Option.map_some, vfsUnlink_withUser, Option.map_map]
    rfl
  · simp only [Option.map_some, vfsUnlink_withUser]
    rcases vfsUnlink k₁ src with _ | ⟨result, k₂⟩
    · rfl
    · simp only [Option.map_some, vfsUnlink_withUser]
      split_ifs
      · simp only [Option.map_map]
        rfl
      · rfl

end Memory

/-! The services. -/

/-- A directory change, as `MSG_CHDIR` makes it. -/
def changeDirectory (k : Kernel) (path : Str) : Option (Int × Kernel) :=
  match k.current with
  | none => some (-1, k)
  | some p =>
      (chdirPath k path).bind fun full =>
        (vfsReadDir k (vfsNormalizePath full) 1).map fun (entries, k) =>
          match entries with
          | none => (-1, k)
          | some _ => (0, k.setProc p { k.procs p with
              cwd := (vfsNormalizePath full).take (maxPath - 1) })

/-- What is done for a request. The directory that `pwd` asks for changes nothing. -/
def service (k : Kernel) : Request → Option (Int × Kernel)
  | .bare type => if type = msgGetcwd then some (0, k) else none
  | .onPath type path =>
      if type = msgCreate then
        (vfsCreate k path).map fun (fd, k) => if fd ≥ 0 then (0, (vfsClose k fd).2) else (-1, k)
      else if type = msgMkdir then vfsMkdir k path
      else if type = msgChdir then changeDirectory k path
      else if type = msgRemove then vfsUnlink k path
      else if type = msgUnbind then some (unbind k path)
      else none
  | .onPaths type path data =>
      if type = msgCopy then copyMessage k path data
      else if type = msgMove then moveMessage k path data
      else if type = msgBind then Chthon.bind k data path mrepl
      else none

/-- A request that is not refused. -/
def served (k : Kernel) (wanted : Request) : Option Kernel :=
  (service k wanted).bind fun (result, k) => if result < 0 then none else some k

section Memory

variable (k : Kernel) (u : Memory)

theorem changeDirectory_withUser (path : Str) : changeDirectory (k.withUser u) path =
    (changeDirectory k path).map fun answer => (answer.1, answer.2.withUser u) := by
  rw [changeDirectory, withUser_current, changeDirectory]
  rcases k.current with _ | p
  · rfl
  · dsimp only
    rw [chdirPath_withUser]
    rcases chdirPath k path with _ | full
    · rfl
    · rw [Option.bind_some, Option.bind_some, vfsReadDir_withUser, Option.map_map, Option.map_map]
      rcases vfsReadDir k (vfsNormalizePath full) 1 with _ | ⟨_ | entries, k₁⟩ <;> rfl

theorem service_withUser (wanted : Request) : service (k.withUser u) wanted =
    (service k wanted).map fun answer => (answer.1, answer.2.withUser u) := by
  cases wanted with
  | bare type =>
      rw [service, service]
      split_ifs <;> rfl
  | onPath type path =>
      rw [service, service]
      split_ifs
      · rw [vfsCreate_withUser, Option.map_map, Option.map_map]
        rcases vfsCreate k path with _ | ⟨fd, k₁⟩
        · rfl
        · simp only [Option.map_some, Function.comp_apply, vfsClose_withUser]
          split_ifs <;> rfl
      · exact vfsMkdir_withUser k u path
      · exact changeDirectory_withUser k u path
      · exact vfsUnlink_withUser k u path
      · exact congrArg some (unbind_withUser k u path)
      · rfl
  | onPaths type path data =>
      rw [service, service]
      split_ifs
      · exact copyMessage_withUser k u path data
      · exact moveMessage_withUser k u path data
      · exact bind_withUser k u data path mrepl
      · rfl

theorem served_withUser (wanted : Request) :
    served (k.withUser u) wanted = (served k wanted).map fun k => k.withUser u := by
  rw [served, service_withUser, served]
  rcases service k wanted with _ | ⟨result, k₁⟩
  · rfl
  · simp only [Option.map_some, Option.bind_some]
    split_ifs <;> rfl

end Memory

/-- The requests of the shell, with texts that fit the line. -/
inductive Known : Request → Prop
  | getcwd : Known (.bare msgGetcwd)
  | onPath {type : Nat} {path : Str} :
      type ∈ [msgCreate, msgMkdir, msgChdir, msgRemove, msgUnbind] → path.length ≤ 63 →
        Known (.onPath type path)
  | onPaths {type : Nat} {path data : Str} : type ∈ [msgCopy, msgMove, msgBind] →
      path.length ≤ 63 → data.length ≤ 63 → Known (.onPaths type path data)

section Services

variable {out : Outside} {k k' : Kernel} {u : Memory} {msg msg' : Message} {result : Int}
  {path data : Str}

theorem served_of {wanted : Request} (h : service k wanted = some (result, k')) (hresult : 0 ≤ result) :
    served k wanted = some k' := by
  rw [served, h, Option.bind_some]
  exact if_neg (Int.not_lt.mpr hresult)

theorem changeDirectory_message (htext : (k.withUser u).text msg.path = some path)
    (h : chdirMessage (k.withUser u) msg = some (result, msg', k')) :
    ∃ k₁, changeDirectory k path = some (result, k₁) ∧ k' = k₁.withUser u := by
  rw [chdirMessage, withUser_current] at h
  rw [changeDirectory]
  cases hcur : k.current with
  | none =>
      simp only [hcur] at h
      cases h
      exact ⟨k, rfl, rfl⟩
  | some p =>
      simp only [hcur, htext, Option.bind_some, chdirPath_withUser] at h
      dsimp only
      cases hfull : chdirPath k path with
      | none =>
          rw [hfull] at h
          cases h
      | some full =>
          simp only [hfull, vfsReadDir_withUser] at h
          rw [Option.bind_some]
          cases hread : vfsReadDir k (vfsNormalizePath full) 1 with
          | none =>
              rw [hread] at h
              cases h
          | some answer =>
              obtain ⟨entries, k₁⟩ := answer
              rw [hread, Option.map_some] at h
              cases entries with
              | none =>
                  cases h
                  exact ⟨k₁, rfl, rfl⟩
              | some entries =>
                  cases h
                  exact ⟨_, rfl, rfl⟩

/-- `MSG_GETCWD` only writes its answer. -/
theorem getcwdMessage_served (h : getcwdMessage (k.withUser u) msg = (result, msg', k')) :
    ∃ u', k' = k.withUser u' := by
  rw [getcwdMessage] at h
  split at h
  · cases h
    exact ⟨u, rfl⟩
  · split_ifs at h
    · cases h
      exact ⟨_, rfl⟩
    · cases h
      exact ⟨u, rfl⟩

/-- A message with a path. -/
theorem onPath_served {type : Nat}
    (htypes : type ∈ [msgCreate, msgMkdir, msgChdir, msgRemove, msgUnbind]) (htype : msg.type = type)
    (htext : (k.withUser u).text msg.path = some path)
    (h : sendMessage out (k.withUser u) msg = some (result, msg', k')) (hresult : 0 ≤ result) :
    ∃ k₁, served k (.onPath type path) = some k₁ ∧ k' = k₁.withUser u := by
  rw [sendMessage, htype] at h
  simp only [List.mem_cons, List.not_mem_nil, or_false] at htypes
  rcases htypes with rfl | rfl | rfl | rfl | rfl
  · change ((k.withUser u).text msg.path).bind _ = _ at h
    rw [htext, Option.bind_some, vfsCreate_withUser, Option.map_map] at h
    obtain ⟨⟨fd, k₁⟩, hcreate, heq⟩ := Option.map_eq_some_iff.mp h
    dsimp only [Function.comp_apply] at heq
    split_ifs at heq with hfd
    · cases heq
      have hservice : service k (.onPath msgCreate path) = some (0, (vfsClose k₁ fd).2) := by
        change (vfsCreate k path).map _ = _
        rw [hcreate, Option.map_some]
        dsimp only
        rw [if_pos hfd]
      exact ⟨_, served_of hservice le_rfl, by rw [vfsClose_withUser]⟩
    · cases heq
      exact absurd hresult (by decide)
  · change ((k.withUser u).text msg.path).bind _ = _ at h
    rw [htext, Option.bind_some, vfsMkdir_withUser, Option.map_map] at h
    obtain ⟨⟨result', k₁⟩, hmkdir, heq⟩ := Option.map_eq_some_iff.mp h
    cases heq
    exact ⟨k₁, served_of hmkdir hresult, rfl⟩
  · obtain ⟨k₁, hchange, rfl⟩ := changeDirectory_message htext h
    exact ⟨k₁, served_of hchange hresult, rfl⟩
  · change (if msg.path = 0 then _ else ((k.withUser u).text msg.path).bind _) = _ at h
    split_ifs at h
    · cases h
      exact absurd hresult (by decide)
    · rw [htext, Option.bind_some, vfsUnlink_withUser, Option.map_map] at h
      obtain ⟨⟨result', k₁⟩, hunlink, heq⟩ := Option.map_eq_some_iff.mp h
      dsimp only [Function.comp_apply] at heq
      split_ifs at heq with hneg
      · cases heq
        exact absurd hresult (by decide)
      · cases heq
        exact ⟨k₁, served_of hunlink (Int.not_lt.mp hneg), rfl⟩
  · change ((k.withUser u).text msg.path).map _ = _ at h
    rw [htext, Option.map_some, unbind_withUser] at h
    cases h
    have hservice : service k (.onPath msgUnbind path) = some (unbind k path) := rfl
    exact ⟨(unbind k path).2, served_of hservice hresult, rfl⟩

/-- A message with two paths. -/
theorem onPaths_served {type : Nat} (htypes : type ∈ [msgCopy, msgMove, msgBind])
    (htype : msg.type = type) (htext : (k.withUser u).text msg.path = some path)
    (htext' : (k.withUser u).text msg.data = some data)
    (h : sendMessage out (k.withUser u) msg = some (result, msg', k')) (hresult : 0 ≤ result) :
    ∃ k₁, served k (.onPaths type path data) = some k₁ ∧ k' = k₁.withUser u := by
  have hcall : ∀ {call : Str → Str → Option (Int × Kernel)},
      withPaths (k.withUser u) msg call = some (result, msg', k') →
        call path data = some (result, k') := by
    intro call h
    rw [withPaths] at h
    split_ifs at h
    · cases h
      exact absurd hresult (by decide)
    · rw [htext, htext'] at h
      obtain ⟨_, hcalled, heq⟩ := Option.map_eq_some_iff.mp h
      cases heq
      exact hcalled
  rw [sendMessage, htype] at h
  simp only [List.mem_cons, List.not_mem_nil, or_false] at htypes
  rcases htypes with rfl | rfl | rfl
  · have hcopy := hcall h
    rw [copyMessage_withUser] at hcopy
    obtain ⟨⟨result', k₁⟩, hcopied, heq⟩ := Option.map_eq_some_iff.mp hcopy
    cases heq
    exact ⟨k₁, served_of hcopied hresult, rfl⟩
  · have hmove := hcall h
    rw [moveMessage_withUser] at hmove
    obtain ⟨⟨result', k₁⟩, hmoved, heq⟩ := Option.map_eq_some_iff.mp hmove
    cases heq
    exact ⟨k₁, served_of hmoved hresult, rfl⟩
  · have hbind := hcall h
    rw [bind_withUser, Option.map_map] at hbind
    obtain ⟨⟨result', k₁⟩, hbound, heq⟩ := Option.map_eq_some_iff.mp hbind
    dsimp only [Function.comp_apply] at heq
    obtain ⟨hsame, rfl⟩ := Prod.mk.inj heq
    refine ⟨k₁, served_of hbound ?_, rfl⟩
    split_ifs at hsame with hneg
    · omega
    · exact Int.not_lt.mp hneg

end Services

end Chthon
