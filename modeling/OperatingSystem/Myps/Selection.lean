import Mathlib.Data.List.Basic
import OperatingSystem.Procfs.Stat

/-! # The process selection of myps

The option letters and the directory scan of `myps.c`. Every letter only takes filters
of the scan away, so the selection grows with the set of letters and depends on
nothing else of the arguments. It exists while the selected processes have room in
`procList`, which is not tested, as little as what `getpwuid`, `localtime` and `gmtime`
return.
-/

namespace OperatingSystem.Myps

open Libc Procfs

/-- The option flags, with the pids that follow `p`. -/
structure Options where
  aOption : Bool
  eOption : Bool
  fOption : Bool
  hOption : Bool
  pOption : Bool
  uOption : Bool
  xOption : Bool
  pidList : List (BitVec 64)
  deriving DecidableEq

def Options.initial : Options := ⟨false, false, false, false, false, false, false, []⟩

def switchLetter (o : Options) : Char → Options
  | 'a' => { o with aOption := true }
  | 'e' => { o with eOption := true, aOption := true, xOption := true }
  | 'f' => { o with fOption := true }
  | 'h' => { o with hOption := true }
  | 'p' => { o with pOption := true, aOption := true, xOption := true }
  | 'u' => { o with uOption := true }
  | 'x' => { o with xOption := true }
  | _ => o

/-- One argument of the command line. After `p` it has to be a pid, else `ErrorFunc` ends the
program. -/
def parseArg (o : Options) (arg : List Char) : Option Options :=
  if o.pOption then
    if arg.all Char.isDigit then
      some (arg.foldl switchLetter { o with pidList := o.pidList ++ [ulong (atoi arg)] })
    else none
  else some (arg.foldl switchLetter o)

/-- The loop over the arguments after the program's name. -/
def parseArgs (args : List (List Char)) : Option Options := args.foldlM parseArg .initial

/-- An entry of `/proc`: its `stat` data, the terminal that `GetTTY` finds for it and what the files
of a process hold. -/
structure DirEntry where
  name : List Char
  isDir : Bool
  uid : ℕ
  tty : List Char
  record : StatRecord
  vmLck : ℕ
  cmdline : List Char

structure Self where
  uid : ℕ
  tty : List Char

/-- What `AddProcessList` asks the system for besides the files. -/
structure Host where
  clock : Clock
  getpwuid : ℕ → Option (List Char)

abbrev unameLen : ℕ := 32

def systemd : List Char := ['s', 'y', 's', 't', 'e', 'm', 'd', '-']

/-- The tests of `SearchProcess` that an entry has to pass to be added. -/
def selected (o : Options) (me : Self) (d : DirEntry) : Bool :=
  if !d.isDir then false
  else if !d.name.all Char.isDigit then false
  else if !o.aOption && d.uid ≠ me.uid then false
  else if !o.xOption && (d.tty.isEmpty || d.tty = ['?']) then false
  else if (!o.aOption && !o.uOption && !o.xOption) && d.tty ≠ me.tty then false
  else true

/-- `proc.user`, which a copy of the name in `tmp` decides. -/
def user (pwName : Option (List Char)) : Option (List Char) := do
  let name ← pwName
  let tmp ← strcat unameLen [] name
  some (if tmp.take systemd.length = systemd then systemd.dropLast ++ ['+'] else name)

/-- `AddProcessList`, for the pid that it stores to `procList[procCnt]`. There is no list once a
`NULL` is dereferenced or a store leaves `tmp`, `proc` or `procList`. -/
def addProcessList (host : Host) (procList : List (BitVec 64)) (d : DirEntry) :
    Option (List (BitVec 64)) := do
  let _ ← user (host.getpwuid d.uid)
  let s ← mypsStat host.clock d.vmLck d.record.render
  let _ ← command s.cmd d.cmdline
  if procList.length < processMax then some (procList ++ [s.pid]) else none

def searchProcess (host : Host) (o : Options) (me : Self) (dir : List DirEntry) :
    Option (List (BitVec 64)) :=
  dir.foldlM (fun procList d =>
    if selected o me d then addProcessList host procList d else some procList) []

/-- The pids that `main` collects, unless it ends with a syntax error. -/
def processes (host : Host) (me : Self) (dir : List DirEntry) (args : List (List Char)) :
    Option (List (BitVec 64)) :=
  (parseArgs args).bind fun o => searchProcess host o me dir

/-- The owner has a name that fits into `tmp`. -/
def Named (pwName : Option (List Char)) : Prop := ∃ name ∈ pwName, name.length < unameLen

instance (pwName : Option (List Char)) : Decidable (Named pwName) :=
  inferInstanceAs (Decidable (∃ name ∈ pwName, name.length < unameLen))

/-- `AddProcessList` gets to the store of the process. -/
def DirEntry.Complete (d : DirEntry) (host : Host) : Prop :=
  Named (host.getpwuid d.uid) ∧ TimesNonneg d.record.render ∧ (visible d.cmdline).length < cmdLen

instance (d : DirEntry) (host : Host) : Decidable (d.Complete host) :=
  inferInstanceAs (Decidable (_ ∧ _ ∧ _))

/-- The selected processes are complete, and `procList` has room for them. -/
structure Fits (host : Host) (o : Options) (me : Self) (dir : List DirEntry) : Prop where
  processes : (dir.filter (selected o me)).length ≤ processMax
  complete : ∀ d ∈ dir, selected o me d = true → d.Complete host

variable {o o' : Options} {me : Self} {args args' : List (List Char)} {host : Host}
  {dir : List DirEntry} {d : DirEntry} {procList : List (BitVec 64)}

section Parser

end Parser

section Scan

end Scan

def entry (pid uid : ℕ) (tty : List Char) : DirEntry where
  name := unsignedText pid
  isDir := true
  uid
  tty
  record := { plain with pid := ⟨pid % 2 ^ 31, by omega⟩ }
  vmLck := 0
  cmdline := []

def machine : Host := ⟨.zero, fun _ => some ['r', 'o', 'o', 't']⟩

end OperatingSystem.Myps
