import Chthon.CString
import Chthon.Lib.BasicBlocks

/-! The shell of user mode, `arch/user_shell.S`: one block for each label, in the order of the
source. Code that the source repeats for several commands is a definition with parameters. -/

namespace Chthon.UserShell

open BasicBlocks

/-- The labels of the code. -/
inductive Label where
  | userShellStart | printPrompt | inputLoop | handleBackspace | processCommand
  | checkOtherCommands | checkHelp | checkClear
  | checkLs | findLsPath | foundLsPath | findLsPathEnd | lsPathFound | lsNoArgs | lsWithPath
  | lsGetCwd | clearLsCwdMsg | lsCwdError | lsDoReaddir | lsLoop | lsNameLoop | lsNameDone
  | lsEmpty | lsError | lsDone | lsDoneWithPwdBuffer
  | checkTouch | findFilename | foundFilename | findFilenameEnd | filenameFound
  | touchError | touchNoArgs | printMessageSimple | printMsgSimpleDone
  | checkMkdir | findDirname | foundDirname | findDirnameEnd | dirnameFound
  | mkdirError | mkdirNoArgs
  | checkPwd | pwdCommand | clearPwdMsg | pwdError
  | checkCd | findCdPath | foundCdPath | findCdPathEnd | cdPathFound
  | cdError | cdNoArgs | cdErrorNoargs
  | checkCp | findCpSrc | foundCpSrc | findCpSrcEnd | foundCpSrcEnd | findCpDst | foundCpDst
  | findCpDstEnd | cpDstFound | cpError | cpNoArgs
  | checkRm | findRmFile | foundRmFile | findRmFileEnd | rmFileFound | rmError | rmNoArgs
  | checkMv | findMvSrc | foundMvSrc | findMvSrcEnd | foundMvSrcEnd | findMvDst | foundMvDst
  | findMvDstEnd | mvDstFound | mvError | mvNoArgs
  | checkBind | findBindSource | foundBindSource | findBindSourceEnd | foundBindSourceEnd
  | findBindTarget | foundBindTarget | findBindTargetEnd | bindPathsFound | bindError | bindNoArgs
  | checkUnbind | findUnbindPath | foundUnbindPath | findUnbindPathEnd | unbindPathFound
  | unbindError | unbindNoArgs
  | unknownCommand | echoEmpty | echoLoop | echoDone | printMessage
  | printMessageAndRestore | printMsgRestoreDone
  | printMessageAndRestoreLs | printMsgRestoreLsDone
  | printMessageAndRestorePwd | printPwdNewline | printMsgRestorePwdDone | resetAndPrompt
  deriving DecidableEq

/-- The labels of the data. -/
inductive Symbol where
  | inputBuffer | unknownMsg | sysnameMsg | helpMsg | rootPath | emptyMsg | lsErrorMsg
  | touchErrorMsg | touchUsageMsg | mkdirErrorMsg | mkdirUsageMsg | pwdErrorMsg | cdErrorMsg
  | cpErrorMsg | cpUsageMsg | rmErrorMsg | rmUsageMsg | mvErrorMsg | mvUsageMsg
  | bindErrorMsg | bindUsageMsg | unbindErrorMsg | unbindUsageMsg

abbrev Block := List (Instr Label Symbol)

def space : UInt8 := 32

/-! Messages: `MSG_BIND` and so on. -/

def msgBind : Nat := 6
def msgReadDir : Nat := 12
def msgCreate : Nat := 13
def msgMkdir : Nat := 14
def msgGetcwd : Nat := 15
def msgChdir : Nat := 16
def msgCopy : Nat := 17
def msgRemove : Nat := 18
def msgMove : Nat := 19
def msgUnbind : Nat := 20

/-! Comparing the line, at `x2` with its length in `x3`. -/

/-- The bytes from position `k` on are those of the text, or go to `other`. -/
def compareFrom (other : Label) : Nat → Str → Block
  | _, [] => []
  | k, c :: cs =>
      .ldrb (.x 4) (.x 2) k :: .cmpw (.x 4) c.toNat :: .branchIf .ne other ::
        compareFrom other (k + 1) cs

/-- The whole line is the word. -/
def checkWhole (word : Str) (other : Label) : Block :=
  .cmp (.x 3) word.length :: .branchIf .ne other :: compareFrom other 0 word

/-- The line starts with the word. -/
def checkPrefix (word : Str) (other : Label) : Block :=
  .cmp (.x 3) word.length :: .branchIf .lt other :: compareFrom other 0 word

/-- The line is the word, which goes to `bare`, or the word and a space. -/
def checkCommand (word : Str) (bare other : Label) : Block :=
  checkPrefix word other ++
    [.cmp (.x 3) word.length,
      .branchIf .eq bare,
      .ldrb (.x 4) (.x 2) word.length,
      .cmpw (.x 4) 32,
      .branchIf .ne other]

/-- The check of a command that takes arguments, which start behind the space. -/
def checkArguments (word : Str) (bare other : Label) : Block :=
  checkCommand word bare other ++ [.mov (.x 4) (word.length + 1)]

/-! Scanning the arguments. -/

def skipSpaces (byte : Fin 31) (here none found : Label) : Block :=
  [.cmpReg (.x 4) (.x 3),
    .branchIf .ge none,
    .ldrbReg (.x byte) (.x 2) (.x 4),
    .cmpw (.x byte) 32,
    .branchIf .ne found,
    .add (.x 4) (.x 4) 1,
    .branch here]

def findSpace (index byte : Fin 31) (here found atEnd : Label) : Block :=
  [.cmpReg (.x index) (.x 3),
    .branchIf .ge atEnd,
    .ldrbReg (.x byte) (.x 2) (.x index),
    .cmpw (.x byte) 32,
    .branchIf .eq found,
    .add (.x index) (.x index) 1,
    .branch here]

/-- The only argument starts at `x4`. -/
def foundPath : Block := [.movReg (.x 5) (.x 4), .movReg (.x 6) (.x 4)]

/-- The first of two arguments starts at `x4`. -/
def foundSource : Block := [.movReg (.x 5) (.x 4)]

/-- The first of two arguments ends at `x4`. -/
def foundSourceEnd : Block := [.strbReg .xzr (.x 2) (.x 4), .add (.x 4) (.x 4) 1]

/-- The second of two arguments starts at `x4`. -/
def foundTarget : Block := [.movReg (.x 6) (.x 4)]

/-! Sending a message of 96 bytes that lies at `sp`. -/

/-- Clear the doublewords from `offset` on. -/
def clearFields (offset count : Nat) : Block :=
  (List.range count).map fun i => .str (.x 8) .sp (offset + 8 * i)

def sendMessage (error : Label) : Block :=
  [.movReg (.x 0) .sp,
    .mov (.x 8) 4,
    .svc,
    .cmp (.x 0) 0,
    .branchIf .lt error,
    .add .sp .sp 96,
    .branch .resetAndPrompt]

/-- The path is the argument from `x5` to `x6`. -/
def sendPath (type : Nat) (noArgs error : Label) : Block :=
  [.subReg (.x 7) (.x 6) (.x 5),
    .cmp (.x 7) 0,
    .branchIf .eq noArgs,
    .strbReg .xzr (.x 2) (.x 6),
    .sub .sp .sp 96,
    .mov (.x 8) type,
    .str (.x 8) .sp 0,
    .addReg (.x 8) (.x 2) (.x 5),
    .str (.x 8) .sp 8,
    .mov (.x 8) 0] ++ clearFields 16 10 ++ sendMessage error

/-- The path is the argument at `path`, the data that at `data`; the second one ends at `x4`. -/
def sendPaths (type : Nat) (path data : Fin 31) (noArgs error : Label) : Block :=
  [.strbReg .xzr (.x 2) (.x 4),
    .cmpReg (.x 5) (.x 6),
    .branchIf .ge noArgs,
    .sub .sp .sp 96,
    .mov (.x 8) type,
    .str (.x 8) .sp 0,
    .addReg (.x 8) (.x 2) (.x path),
    .str (.x 8) .sp 8,
    .mov (.x 8) 0,
    .str (.x 8) .sp 16,
    .addReg (.x 8) (.x 2) (.x data),
    .str (.x 8) .sp 24,
    .mov (.x 8) 0] ++ clearFields 32 8 ++ sendMessage error

/-! Printing. -/

/-- Put the character in `x0`. -/
def putc : Block := [.mov (.x 8) 1, .svc]

/-- Put a character. -/
def putChar (character : Nat) : Block := [.mov (.x 8) 1, .mov (.x 0) character, .svc]

def printAt (text : Symbol) (printer : Label) : Block := [.adr (.x 4) text, .branch printer]

/-- Put the string at `x4`. -/
def printString (here done : Label) : Block :=
  [.ldrb (.x 5) (.x 4) 0,
    .cmpw (.x 5) 0,
    .branchIf .eq done,
    .movReg (.x 0) (.x 5)] ++ putc ++ [.add (.x 4) (.x 4) 1, .branch here]

/-- Clear nine doublewords from `x4` on, the last one first. -/
def clearMessage (here : Label) : Block :=
  [.strReg (.x 5) (.x 4) (.x 6), .subs (.x 6) (.x 6) 1, .branchIf .ge here]

/-! The code. -/

def code : Label → Block
  | .userShellStart => [.adr (.x 2) .inputBuffer, .mov (.x 3) 0]
  | .printPrompt => putChar 36 ++ putChar 32
  | .inputLoop =>
      [.mov (.x 8) 2, .svc, .movReg (.x 1) (.x 0),
        .cmp (.x 1) 13, .branchIf .eq .processCommand,
        .cmp (.x 1) 10, .branchIf .eq .processCommand,
        .cmp (.x 1) 8, .branchIf .eq .handleBackspace,
        .cmp (.x 1) 127, .branchIf .eq .handleBackspace,
        .cmp (.x 3) 63, .branchIf .ge .inputLoop,
        .strbReg (.x 1) (.x 2) (.x 3), .add (.x 3) (.x 3) 1,
        .movReg (.x 0) (.x 1)] ++ putc ++ [.branch .inputLoop]
  | .handleBackspace =>
      [.cmp (.x 3) 0, .branchIf .eq .inputLoop, .sub (.x 3) (.x 3) 1] ++
        putChar 8 ++ putChar 32 ++ putChar 8 ++ [.branch .inputLoop]
  | .processCommand =>
      [.strbReg .xzr (.x 2) (.x 3)] ++ putChar 10 ++
        [.cmp (.x 3) 0, .branchIf .eq .resetAndPrompt] ++
        checkCommand (ascii "echo") .echoEmpty .checkOtherCommands ++
        [.mov (.x 4) 5, .branch .echoLoop]
  | .checkOtherCommands =>
      checkWhole (ascii "sysname") .checkHelp ++ printAt .sysnameMsg .printMessage
  | .checkHelp => checkWhole (ascii "help") .checkClear ++ printAt .helpMsg .printMessage
  | .checkClear =>
      checkWhole (ascii "clear") .checkLs ++
        [.mov (.x 8) 1, .mov (.x 0) 27, .svc, .mov (.x 0) 91, .svc, .mov (.x 0) 50, .svc,
          .mov (.x 0) 74, .svc, .mov (.x 0) 27, .svc, .mov (.x 0) 91, .svc, .mov (.x 0) 72, .svc,
          .branch .resetAndPrompt]
  -- ls
  | .checkLs => checkArguments (ascii "ls") .lsNoArgs .checkTouch
  | .findLsPath => skipSpaces 5 .findLsPath .lsNoArgs .foundLsPath
  | .foundLsPath => foundPath
  | .findLsPathEnd => findSpace 6 7 .findLsPathEnd .lsPathFound .lsPathFound
  | .lsPathFound =>
      [.subReg (.x 7) (.x 6) (.x 5), .cmp (.x 7) 0, .branchIf .eq .lsNoArgs,
        .mov (.x 8) 0, .strbReg (.x 8) (.x 2) (.x 6), .addReg (.x 9) (.x 2) (.x 5),
        .branch .lsWithPath]
  | .lsNoArgs => []
  | .lsWithPath =>
      [.sub .sp .sp 512, .sub .sp .sp 4096, .sub .sp .sp 96,
        .cmp (.x 3) 2, .branchIf .eq .lsGetCwd, .branch .lsDoReaddir]
  | .lsGetCwd => [.movReg (.x 4) .sp, .mov (.x 5) 0, .mov (.x 6) 8]
  | .clearLsCwdMsg =>
      clearMessage .clearLsCwdMsg ++
        [.mov (.x 5) msgGetcwd, .str (.x 5) (.x 4) 0,
          .add (.x 5) .sp 96, .add (.x 5) (.x 5) 4096, .str (.x 5) (.x 4) 24,
          .mov (.x 5) 512, .str (.x 5) (.x 4) 32,
          .movReg (.x 0) (.x 4), .mov (.x 8) 4, .svc,
          .cmp (.x 0) 0, .branchIf .lt .lsCwdError,
          .add (.x 9) .sp 96, .add (.x 9) (.x 9) 4096, .branch .lsDoReaddir]
  | .lsCwdError => [.adr (.x 9) .rootPath]
  | .lsDoReaddir =>
      [.mov (.x 4) msgReadDir, .str (.x 4) .sp 0, .str (.x 9) .sp 8,
        .mov (.x 4) 0, .str (.x 4) .sp 16,
        .add (.x 4) .sp 96, .str (.x 4) .sp 24,
        .mov (.x 4) 4096, .str (.x 4) .sp 32,
        .mov (.x 4) 0, .str (.x 4) .sp 40, .str (.x 4) .sp 48, .str (.x 4) .sp 56,
        .str (.x 4) .sp 64, .str (.x 4) .sp 72, .str (.x 4) .sp 80, .str (.x 4) .sp 88,
        .movReg (.x 0) .sp, .mov (.x 8) 4, .svc,
        .cmp (.x 0) 0, .branchIf .lt .lsError,
        .ldr (.x 4) .sp 72, .cmp (.x 4) 0, .branchIf .eq .lsEmpty,
        .add (.x 5) .sp 96, .mov (.x 6) 0]
  | .lsLoop =>
      [.cmpReg (.x 6) (.x 4), .branchIf .ge .lsDone,
        .mov (.x 7) 264, .mul (.x 7) (.x 6) (.x 7), .addReg (.x 7) (.x 5) (.x 7),
        .add (.x 7) (.x 7) 8, .movReg (.x 9) (.x 7)]
  | .lsNameLoop =>
      [.ldrb (.x 10) (.x 9) 0, .cmpw (.x 10) 0, .branchIf .eq .lsNameDone,
        .movReg (.x 0) (.x 10)] ++ putc ++ [.add (.x 9) (.x 9) 1, .branch .lsNameLoop]
  | .lsNameDone => [.mov (.x 0) 10] ++ putc ++ [.add (.x 6) (.x 6) 1, .branch .lsLoop]
  | .lsEmpty => printAt .emptyMsg .printMessageAndRestoreLs
  | .lsError => printAt .lsErrorMsg .printMessageAndRestoreLs
  | .lsDone =>
      [.add .sp .sp 96, .add .sp .sp 4096, .add .sp .sp 512, .branch .resetAndPrompt]
  | .lsDoneWithPwdBuffer =>
      [.add .sp .sp 96, .add .sp .sp 4096, .add .sp .sp 512, .branch .resetAndPrompt]
  -- touch
  | .checkTouch => checkArguments (ascii "touch") .touchNoArgs .checkMkdir
  | .findFilename => skipSpaces 5 .findFilename .touchNoArgs .foundFilename
  | .foundFilename => foundPath
  | .findFilenameEnd => findSpace 6 7 .findFilenameEnd .filenameFound .filenameFound
  | .filenameFound => sendPath msgCreate .touchNoArgs .touchError
  | .touchError => printAt .touchErrorMsg .printMessageSimple
  | .touchNoArgs => printAt .touchUsageMsg .printMessageSimple
  | .printMessageSimple => printString .printMessageSimple .printMsgSimpleDone
  | .printMsgSimpleDone => [.branch .resetAndPrompt]
  -- mkdir
  | .checkMkdir => checkArguments (ascii "mkdir") .mkdirNoArgs .checkPwd
  | .findDirname => skipSpaces 5 .findDirname .mkdirNoArgs .foundDirname
  | .foundDirname => foundPath
  | .findDirnameEnd => findSpace 6 7 .findDirnameEnd .dirnameFound .dirnameFound
  | .dirnameFound => sendPath msgMkdir .mkdirNoArgs .mkdirError
  | .mkdirError => printAt .mkdirErrorMsg .printMessageSimple
  | .mkdirNoArgs => printAt .mkdirUsageMsg .printMessageSimple
  -- pwd
  | .checkPwd =>
      checkPrefix (ascii "pwd") .checkCd ++
        [.cmp (.x 3) 3, .branchIf .eq .pwdCommand,
          .ldrb (.x 4) (.x 2) 3, .cmpw (.x 4) 32, .branchIf .eq .pwdCommand,
          .branch .unknownCommand]
  | .pwdCommand =>
      [.sub .sp .sp 512, .sub .sp .sp 64, .movReg (.x 4) .sp, .mov (.x 5) 0, .mov (.x 6) 8]
  | .clearPwdMsg =>
      clearMessage .clearPwdMsg ++
        [.mov (.x 5) msgGetcwd, .str (.x 5) (.x 4) 0,
          .add (.x 5) .sp 64, .str (.x 5) (.x 4) 24,
          .mov (.x 5) 512, .str (.x 5) (.x 4) 32,
          .movReg (.x 0) (.x 4), .mov (.x 8) 4, .svc,
          .cmp (.x 0) 0, .branchIf .lt .pwdError,
          .add (.x 4) .sp 64, .branch .printMessageAndRestorePwd]
  | .pwdError => printAt .pwdErrorMsg .printMessageAndRestorePwd
  -- cd
  | .checkCd => checkArguments (ascii "cd") .cdNoArgs .checkCp
  | .findCdPath => skipSpaces 5 .findCdPath .cdNoArgs .foundCdPath
  | .foundCdPath => foundPath
  | .findCdPathEnd => findSpace 6 7 .findCdPathEnd .cdPathFound .cdPathFound
  | .cdPathFound => sendPath msgChdir .cdNoArgs .cdError
  | .cdError => printAt .cdErrorMsg .printMessageSimple
  | .cdNoArgs =>
      [.sub .sp .sp 96, .mov (.x 8) msgChdir, .str (.x 8) .sp 0,
        .adr (.x 8) .rootPath, .str (.x 8) .sp 8, .mov (.x 8) 0] ++
        clearFields 16 10 ++ sendMessage .cdErrorNoargs
  | .cdErrorNoargs => printAt .cdErrorMsg .printMessageSimple
  -- cp
  | .checkCp => checkArguments (ascii "cp") .cpNoArgs .checkRm
  | .findCpSrc => skipSpaces 5 .findCpSrc .cpNoArgs .foundCpSrc
  | .foundCpSrc => foundSource
  | .findCpSrcEnd => findSpace 4 6 .findCpSrcEnd .foundCpSrcEnd .cpNoArgs
  | .foundCpSrcEnd => foundSourceEnd
  | .findCpDst => skipSpaces 6 .findCpDst .cpNoArgs .foundCpDst
  | .foundCpDst => foundTarget
  | .findCpDstEnd => findSpace 4 7 .findCpDstEnd .cpDstFound .cpDstFound
  | .cpDstFound => sendPaths msgCopy 5 6 .cpNoArgs .cpError
  | .cpError => printAt .cpErrorMsg .printMessageSimple
  | .cpNoArgs => printAt .cpUsageMsg .printMessageSimple
  -- rm
  | .checkRm => checkArguments (ascii "rm") .rmNoArgs .checkMv
  | .findRmFile => skipSpaces 5 .findRmFile .rmNoArgs .foundRmFile
  | .foundRmFile => foundPath
  | .findRmFileEnd => findSpace 6 7 .findRmFileEnd .rmFileFound .rmFileFound
  | .rmFileFound => sendPath msgRemove .rmNoArgs .rmError
  | .rmError => printAt .rmErrorMsg .printMessageSimple
  | .rmNoArgs => printAt .rmUsageMsg .printMessageSimple
  -- mv
  | .checkMv => checkArguments (ascii "mv") .mvNoArgs .checkBind
  | .findMvSrc => skipSpaces 5 .findMvSrc .mvNoArgs .foundMvSrc
  | .foundMvSrc => foundSource
  | .findMvSrcEnd => findSpace 4 6 .findMvSrcEnd .foundMvSrcEnd .mvNoArgs
  | .foundMvSrcEnd => foundSourceEnd
  | .findMvDst => skipSpaces 6 .findMvDst .mvNoArgs .foundMvDst
  | .foundMvDst => foundTarget
  | .findMvDstEnd => findSpace 4 7 .findMvDstEnd .mvDstFound .mvDstFound
  | .mvDstFound => sendPaths msgMove 5 6 .mvNoArgs .mvError
  | .mvError => printAt .mvErrorMsg .printMessageSimple
  | .mvNoArgs => printAt .mvUsageMsg .printMessageSimple
  -- bind, with the target in the field of the path
  | .checkBind => checkArguments (ascii "bind") .bindNoArgs .checkUnbind
  | .findBindSource => skipSpaces 5 .findBindSource .bindNoArgs .foundBindSource
  | .foundBindSource => foundSource
  | .findBindSourceEnd => findSpace 4 6 .findBindSourceEnd .foundBindSourceEnd .bindNoArgs
  | .foundBindSourceEnd => foundSourceEnd
  | .findBindTarget => skipSpaces 6 .findBindTarget .bindNoArgs .foundBindTarget
  | .foundBindTarget => foundTarget
  | .findBindTargetEnd => findSpace 4 7 .findBindTargetEnd .bindPathsFound .bindPathsFound
  | .bindPathsFound => sendPaths msgBind 6 5 .bindNoArgs .bindError
  | .bindError => printAt .bindErrorMsg .printMessageSimple
  | .bindNoArgs => printAt .bindUsageMsg .printMessageSimple
  -- unbind
  | .checkUnbind => checkArguments (ascii "unbind") .unbindNoArgs .unknownCommand
  | .findUnbindPath => skipSpaces 5 .findUnbindPath .unbindNoArgs .foundUnbindPath
  | .foundUnbindPath => foundPath
  | .findUnbindPathEnd => findSpace 6 7 .findUnbindPathEnd .unbindPathFound .unbindPathFound
  | .unbindPathFound => sendPath msgUnbind .unbindNoArgs .unbindError
  | .unbindError => printAt .unbindErrorMsg .printMessageSimple
  | .unbindNoArgs => printAt .unbindUsageMsg .printMessageSimple
  | .unknownCommand => printAt .unknownMsg .printMessage
  -- echo
  | .echoEmpty => [.branch .echoDone]
  | .echoLoop =>
      [.cmpReg (.x 4) (.x 3), .branchIf .ge .echoDone,
        .ldrbReg (.x 5) (.x 2) (.x 4), .movReg (.x 0) (.x 5)] ++ putc ++
        [.add (.x 4) (.x 4) 1, .branch .echoLoop]
  | .echoDone => putChar 10 ++ [.branch .resetAndPrompt]
  -- printing, with what each command has on the stack
  | .printMessage => printString .printMessage .resetAndPrompt
  | .printMessageAndRestore => printString .printMessageAndRestore .printMsgRestoreDone
  | .printMsgRestoreDone => [.add .sp .sp 96, .add .sp .sp 4096, .branch .resetAndPrompt]
  | .printMessageAndRestoreLs => printString .printMessageAndRestoreLs .printMsgRestoreLsDone
  | .printMsgRestoreLsDone =>
      [.add .sp .sp 96, .add .sp .sp 4096, .add .sp .sp 512, .branch .resetAndPrompt]
  | .printMessageAndRestorePwd => printString .printMessageAndRestorePwd .printPwdNewline
  | .printPwdNewline => [.mov (.x 0) 10] ++ putc
  | .printMsgRestorePwdDone => [.add .sp .sp 64, .add .sp .sp 512, .branch .resetAndPrompt]
  | .resetAndPrompt => [.mov (.x 3) 0, .branch .printPrompt]

/-- Blocks follow each other in the order of the labels. -/
def next (label : Label) : Label := .ofNat (label.ctorIdx + 1)

/-- The shell with its data where the linker puts it. -/
def shell (symbol : Symbol → Arm64.Word) : Program Label Symbol := ⟨code, next, symbol⟩

/-! What the kernel leaves of the state of its caller. -/

/-- `sync_handler` gives back the registers it has saved, with the result in `x0`, and only a message
makes the kernel write to memory of the caller. -/
structure KeepsCaller (env : Environment) : Prop where
  x : ∀ calls s (r : Fin 31), 1 ≤ r → r < 10 → (env calls s).x r = s.x r
  sp : ∀ calls s, (env calls s).sp = s.sp
  mem : ∀ calls s, s.x 8 ≠ 4 → (env calls s).mem = s.mem

end Chthon.UserShell
