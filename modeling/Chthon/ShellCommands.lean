import Chthon.MoveMessage
import Chthon.ShellCd
import Chthon.ShellLine

/-! The commands of the kernel shell, `user/shell.c`: what each of them prints and does to the kernel.
The arguments are the text behind the first space of the line, and NULL if it has none. `none` is a
command that does not come back or is not defined. What the kernel's own functions print is not
modelled. -/

namespace Chthon.Shell

open PathText

def newline : Str := ascii "\n"

/-- `cmd_echo` -/
def cmdEcho (args : Option Str) : Str := args.getD [] ++ newline

/-- `cmd_pwd` -/
def cmdPwd (k : Kernel) : Option Str :=
  k.currentProcess.map fun p => if p.cwd = [] then ascii "/\n" else p.cwd ++ newline

/-- `cmd_cd`, with what it prints. -/
def runCd (k : Kernel) (path : Option Str) : Option (Str × Kernel) :=
  match k.current with
  | none => none
  | some p =>
      if path.getD [] = [] then some ([], k.setCwd p (ascii "/"))
      else if path.getD [] = ascii "." then some ([], k)
      else if path.getD [] = ascii ".." then some ([], k.setCwd p (getParentDir (k.procs p).cwd))
      else
        match cdTarget (k.procs p).cwd (path.getD []) with
        | none => none
        | some tempPath =>
            (vfsOpen k tempPath).map fun (fd, k) =>
              if fd < 0 then (ascii "cd: no such directory: " ++ tempPath ++ newline, k)
              else ([], k.setCwd p tempPath)

/-- `cmd_ls`: the message carries no buffer, so it comes back with no entries to print. -/
def cmdLs (k : Kernel) (path : Option Str) : Option (Str × Kernel) :=
  match (if path.getD [] = [] then k.currentProcess.map Process.cwd else path) with
  | none => none
  | some path =>
      (vfsReadDir k path maxDirents).map fun (dirents, k) =>
        (if dirents.isSome then [] else ascii "ls: cannot access '" ++ path ++ ascii "'\n", k)

/-- The loop of `cmd_cp`: what it prints at its end. -/
def cpLoop (src dst : Int) : Nat → Kernel → Option (Str × Kernel)
  | 0, _ => none
  | fuel + 1, k =>
      match vfsRead k src 1024 with
      | none => none
      | some (none, k) => some (ascii "cp: read error\n", k)
      | some (some bytes, k) =>
          if bytes = [] then some ([], k)
          else
            match vfsWrite k dst bytes with
            | none => none
            | some (written, k) =>
                if written ≠ bytes.length then some (ascii "cp: write error\n", k)
                else cpLoop src dst fuel k

/-- `cmd_cp` behind its tokens. Neither descriptor is closed. -/
def cpFiles (k : Kernel) : Option (Str × Str) → Option (Str × Kernel)
  | none => some (ascii "Usage: cp source dest\n", k)
  | some (src, dst) =>
      match vfsOpen k src with
      | none => none
      | some (srcFd, k) =>
          if srcFd < 0 then some (ascii "cp: cannot open source file: " ++ src ++ newline, k)
          else
            match vfsCreate k dst with
            | none => none
            | some (dstFd, k) =>
                if dstFd < 0 then
                  some (ascii "cp: cannot create destination file: " ++ dst ++ newline, k)
                else cpLoop srcFd dstFd (2 ^ 64) k

/-- `cmd_touch` -/
def cmdTouch (k : Kernel) (args : Option Str) : Option (Str × Kernel) :=
  if args.getD [] = [] then some (ascii "touch: missing file operand\n", k)
  else
    (vfsCreate k (args.getD [])).map fun (fd, k) =>
      if fd < 0 then (ascii "touch: cannot create file '" ++ args.getD [] ++ ascii "'\n", k)
      else ([], (vfsClose k fd).2)

/-- `cmd_mv` behind its tokens, with its call of `cmd_cp`. The source is unlinked whatever that has
printed. -/
def mvFiles (cp : Str → Option (Str × Kernel)) (k : Kernel) :
    Option (Str × Str) → Option (Str × Kernel)
  | none => some (ascii "Usage: mv source dest\n", k)
  | some (src, dst) =>
      match cp (src ++ ascii " " ++ dst) with
      | none => none
      | some (out, k) =>
          (vfsUnlink k src).map fun (result, k) =>
            (if result < 0 then out ++ ascii "mv: cannot remove source file\n" else out, k)

/-- What `cmd_rm` makes of its arguments. -/
inductive Removal where
  | usage
  | missing
  | target (recursive : Bool) (path : Str)
  deriving DecidableEq

/-- `cmd_rm` behind its tokens. -/
def rmTarget (k : Kernel) : Removal → Option (Str × Kernel)
  | .usage => some (ascii "Usage: rm [-r] <file|directory>\n", k)
  | .missing => some (ascii "rm: missing file operand\n", k)
  | .target true path =>
      (vfsRemoveRecursive k path).map fun (result, k) =>
        (if result < 0 then ascii "rm: cannot recursively remove '" ++ path ++ ascii "'\n" else [], k)
  | .target false path =>
      (vfsUnlink k path).map fun (result, k) =>
        (if result < 0 then ascii "rm: cannot remove '" ++ path ++ ascii "'\n" else [], k)

/-- `cmd_mkdir` -/
def cmdMkdir (k : Kernel) (args : Option Str) : Option (Str × Kernel) :=
  if args.getD [] = [] then some (ascii "Usage: mkdir <directory>\n", k)
  else
    (vfsMkdir k (args.getD [])).map fun (result, k) =>
      (if result < 0 then ascii "mkdir: cannot create directory '" ++ args.getD [] ++ ascii "'\n"
        else [], k)

/-- `cmd_bind` behind its tokens. -/
def bindPaths (k : Kernel) : Option (Str × Str) → Option (Str × Kernel)
  | none => some (ascii "Usage: bind source target\n", k)
  | some (old, new) =>
      (bind k old new mrepl).map fun (result, k) =>
        (if result < 0 then ascii "bind: failed to create binding\n"
          else ascii "Created binding: " ++ new ++ ascii " -> " ++ old ++ newline, k)

/-- The branch of `shell` for `unbind`. -/
def unbindPath (k : Kernel) : Option Str → Str × Kernel
  | none => (ascii "Usage: unbind <path>\n", k)
  | some path =>
      (if (unbind k path).1 < 0 then ascii "unbind: failed\n"
        else ascii "Namespace unbound: " ++ path ++ newline, (unbind k path).2)

/-! The arguments as texts. `strtok_r` on NULL goes on where a pointer leads that has not been set. -/

/-- The first two words of the arguments, if there are two. -/
def twoWords (args : Str) : Option (Str × Str) :=
  match components 32 args with
  | first :: second :: _ => some (first, second)
  | _ => none

def removalOf (args : Option Str) : Removal :=
  if args.getD [] = [] then .usage
  else
    match components 32 (args.getD []) with
    | [] => .missing
    | first :: rest =>
        if first = ascii "-r" then
          match rest with
          | [] => .missing
          | path :: _ => .target true path
        else .target false first

/-- `cmd_cp` -/
def cmdCp (k : Kernel) (args : Option Str) : Option (Str × Kernel) :=
  args.bind fun args => cpFiles k (twoWords args)

/-- `cmd_mv` -/
def cmdMv (k : Kernel) (args : Option Str) : Option (Str × Kernel) :=
  args.bind fun args => mvFiles (fun line => cmdCp k (some line)) k (twoWords args)

/-- `cmd_rm` -/
def cmdRm (k : Kernel) (args : Option Str) : Option (Str × Kernel) := rmTarget k (removalOf args)

/-- `cmd_bind` -/
def cmdBind (k : Kernel) (args : Option Str) : Option (Str × Kernel) :=
  args.bind fun args => bindPaths k (twoWords args)

/-- One command with its arguments. `exit` ends the process and does not come back to the loop, which no
session looks beyond. -/
def runCommand (k : Kernel) (word : Str) (args : Option Str) : Option (Str × Kernel) :=
  match named word with
  | .exit => none
  | .echo => some (cmdEcho args, k)
  | .pwd => (cmdPwd k).map fun out => (out, k)
  | .cd => runCd k args
  | .ls => cmdLs k args
  | .cp => cmdCp k args
  | .touch => cmdTouch k args
  | .mv => cmdMv k args
  | .rm => cmdRm k args
  | .mkdir => cmdMkdir k args
  | .bind => cmdBind k args
  | .unbind => some (unbindPath k args)
  | .unknown => some (ascii "Unknown command: " ++ word ++ newline, k)

/-- What a line does. -/
def runLine (k : Kernel) (line : Str) : Option (Str × Kernel) :=
  runCommand k (commandWord line) (commandArgs line)

/-- Lines after each other, with what each of them prints. -/
def session (k : Kernel) : List Str → Option (List Str × Kernel)
  | [] => some ([], k)
  | line :: lines =>
      (runLine k line).bind fun (out, k) =>
        (session k lines).map fun (outs, k) => (out :: outs, k)

end Chthon.Shell
