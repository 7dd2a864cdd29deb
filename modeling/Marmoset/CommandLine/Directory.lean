import Marmoset.Bindings
import Marmoset.CommandLine.Path

/-!
# Files

The files that a program sees from the directory it runs in.  Of what lies outside that directory
only this much is known: the directories above it, those that every system has, and a few devices.
-/

namespace Marmoset

/-- Why a file cannot be read or written. -/
inductive FileFault where
  | missing
  | notDirectory
  | isDirectory
  | noSpace
  | nameTooLong
  | badText
  | other (reason : String)
deriving DecidableEq, Repr, Inhabited

namespace FileFault

def message : FileFault → String
  | missing => "No such file or directory (os error 2)"
  | notDirectory => "Not a directory (os error 20)"
  | isDirectory => "Is a directory (os error 21)"
  | noSpace => "No space left on device (os error 28)"
  | nameTooLong => "File name too long (os error 36)"
  | badText => "stream did not contain valid UTF-8"
  | other reason => reason

end FileFault

/-- What is at a place. -/
inductive Node where
  | directory
  | file (bytes : List UInt8)
deriving DecidableEq, Repr, Inhabited

/-- The files that were put somewhere. -/
structure Directory where
  files : Bindings Place (List UInt8)
deriving DecidableEq, Repr, Inhabited

namespace Directory

def empty : Directory := ⟨.empty⟩

/-! ## What every system has -/

/-- The directories of every system. -/
def standard : List String :=
  ["/bin", "/boot", "/dev", "/dev/shm", "/etc", "/home", "/lib", "/media", "/mnt", "/opt",
    "/proc", "/root",
   "/run", "/sbin", "/srv", "/sys", "/tmp", "/usr", "/usr/bin", "/usr/include", "/usr/lib",
   "/usr/local",
   "/usr/sbin", "/usr/share", "/usr/src", "/var", "/var/cache", "/var/lib", "/var/log", "/var/tmp"]

/-- The device that is always empty. -/
def nullDevice : Place := .device "null"

/-- The device that is always full. -/
def fullDevice : Place := .device "full"

/-- The input of the program. -/
def inputDevice : Place := .device "stdin"

/-- The output of the program. -/
def outputDevice : Place := .device "stdout"

/-! ## Finding a place -/

/-- Whether there is a directory at a place: one of those that are always there, or one with a file
in it. -/
def isDirectory (d : Directory) (p : Place) : Bool :=
  p.names.isEmpty || standard.any (fun path => (Path.ofText path).place = p) ||
    d.files.entries.any fun (file, _) => p.isAbove file

/-- What is at a place. -/
def node? (d : Directory) (p : Place) : Option Node :=
  if p = nullDevice then some (.file [])
  else
    match d.files.find? p with
    | some bytes => some (.file bytes)
    | none => if d.isDirectory p then some .directory else none

/-- Where a name leads, unless it is too long for one. -/
def step (p : Place) (name : String) : Except FileFault Place :=
  if name.utf8ByteSize ≤ 255 then .ok (p.step name) else .error .nameTooLong

/-- Goes through directories. -/
def walk (d : Directory) (p : Place) : List String → Except FileFault Place
  | [] => .ok p
  | name :: names =>
    match step p name with
    | .error e => .error e
    | .ok p =>
      match d.node? p with
      | some .directory => d.walk p names
      | some (.file _) => .error .notDirectory
      | none => .error .missing

/-- The directory that the last name of a path is to be looked up in. -/
def approach (d : Directory) (path : String) : Except FileFault Place :=
  if 4096 ≤ path.utf8ByteSize then .error .nameTooLong
  else d.walk (Path.ofText path).start (Path.ofText path).way

/-! ## Reading and writing -/

/-- The bytes of what the last name of a path leads to. -/
def readLast (d : Directory) (p : Place) (name : String) (slashed : Bool) :
    Except FileFault (List UInt8) :=
  match step p name with
  | .error e => .error e
  | .ok p =>
    match d.node? p with
    | some .directory => .error .isDirectory
    | some (.file bytes) => if slashed then .error .notDirectory else .ok bytes
    | none => .error .missing

/-- The bytes of a file. -/
def read (d : Directory) (path : String) : Except FileFault (List UInt8) :=
  let parts := Path.ofText path
  match d.approach path, parts.last with
  | .error e, _ => .error e
  | .ok p, some name => d.readLast p name parts.slashed
  | .ok _, none => if parts.absolute then .error .isDirectory else .error .missing

/-- Puts bytes where the last name of a path leads. -/
def writeLast (d : Directory) (p : Place) (name : String) (bytes : List UInt8) :
    Except FileFault Directory :=
  match step p name with
  | .error e => .error e
  | .ok p =>
    if p = nullDevice then .ok d
    else if p = fullDevice then .error .noSpace
    else if d.node? p = some .directory then .error .isDirectory
    else .ok ⟨d.files.insert p bytes⟩

/-- Puts bytes in a file, which is made if there is none.  A path that can only be that of a
directory is refused before anything is looked up. -/
def write (d : Directory) (path : String) (bytes : List UInt8) : Except FileFault Directory :=
  let parts := Path.ofText path
  match d.approach path, parts.last with
  | .error e, _ => .error e
  | .ok p, some name =>
    if parts.slashed || Place.isDots name then .error .isDirectory else d.writeLast p name bytes
  | .ok _, none => if parts.absolute then .error .isDirectory else .error .missing

/-- Puts bytes in a file, and makes the directories on the way to it. -/
def put (d : Directory) (path : String) (bytes : List UInt8) : Directory :=
  ⟨d.files.insert (Path.ofText path).place bytes⟩

/-! ## Input and output -/

/-- The files with the input of a program among them. -/
def withInput (d : Directory) (input : String) : Directory :=
  ⟨d.files.insert inputDevice input.toUTF8.toList⟩

/-- What was written to the output like to a file, and the files without it. -/
def takeOutput (d : Directory) : String × Directory :=
  match d.files.find? outputDevice with
  | some bytes => ((String.fromUTF8? ⟨bytes.toArray⟩).getD "", ⟨d.files.insert outputDevice []⟩)
  | none => ("", d)

end Directory

end Marmoset
