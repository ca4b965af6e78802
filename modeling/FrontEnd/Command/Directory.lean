import FrontEnd.Command.Path

/-!
# A directory as a host

A directory is a host that is a value: named files, the bytes of standard input, and
what was printed so far.  It is the working directory, and has no directories below it.

Around it stands what every machine has: the directories above, the root with its usual
directories, and a few devices.  Nothing else is known of them, so any other name there
is missing, and what is written there is not seen again.

A path is followed name by name.  All names but the last must be directories, and the
first that is not decides the error.

## Main definitions

* `Directory.find`: what a name stands for in one of the directories.
* `Directory.read`, `Directory.write`: a file by its path.
* `Directory.host`: the directory as a host.
-/

namespace FrontEnd.Command

/-- Files by name, standard input, and what was printed. -/
structure Directory where
  files : List (String × String)
  standard : ByteArray
  output : String
  errorOutput : String

/-- A device that every machine has. -/
inductive Device
  | null
  | input
  | output
  | errorOutput
deriving DecidableEq

/-- The device of a name. -/
def Device.ofName? (name : String) : Option Device :=
  if name = "null" then some .null
  else if name = "stdin" then some .input
  else if name = "stdout" then some .output
  else if name = "stderr" then some .errorOutput
  else none

/-- A directory that a path can lead through. -/
inductive Station
  /-- The working directory. -/
  | here
  | root
  /-- Where the devices are. -/
  | devices
  /-- Any other directory. -/
  | elsewhere
deriving DecidableEq

namespace Station

/-- The directory above. -/
def above : Station → Station
  | .here | .elsewhere => .elsewhere
  | .root | .devices => .root

/-- The directories that are usual at the root, apart from that of the devices. -/
def usual : List String :=
  ["bin", "boot", "etc", "home", "lib", "media", "mnt", "opt", "proc", "root", "run", "sbin",
    "srv", "sys", "tmp", "usr", "var"]

/-- Where a path starts. -/
def ofPath (path : Path) : Station := if path.fromRoot then .root else .here

end Station

/-- What a name stands for. -/
inductive Item
  | directory (station : Station)
  | file (text : String)
  | device (device : Device)
  | missing
deriving DecidableEq

namespace Directory

/-- The text of a file. -/
def text? (d : Directory) (name : String) : Option String := d.files.lookup name

/-- Put a text in a file. -/
def put (d : Directory) (name text : String) : Directory :=
  if (d.text? name).isSome then
    { d with files := d.files.map fun file => if file.1 = name then (name, text) else file }
  else { d with files := d.files ++ [(name, text)] }

/-- Print a text. -/
def print (d : Directory) (text : String) : Directory := { d with output := d.output ++ text }

/-- Print a text as an error. -/
def printError (d : Directory) (text : String) : Directory :=
  { d with errorOutput := d.errorOutput ++ text }

/-! ## Following a path -/

/-- What a name that is no dot or two stands for. -/
def entry (d : Directory) (name : String) : Station → Item
  | .here => ((d.text? name).map Item.file).getD .missing
  | .root =>
    if name = "dev" then .directory .devices
    else if name ∈ Station.usual then .directory .elsewhere
    else .missing
  | .devices => ((Device.ofName? name).map Item.device).getD .missing
  | .elsewhere => .missing

/-- What a name stands for in a directory. -/
def find (d : Directory) (station : Station) (name : String) : Except FileError Item :=
  if name = "." then .ok (.directory station)
  else if name = ".." then .ok (.directory station.above)
  else if Path.nameLimit < name.utf8ByteSize then .error .nameTooLong
  else .ok (d.entry name station)

/-- Go into a directory by its name. -/
def enter (d : Directory) (station : Station) (name : String) : Except FileError Station := do
  match ← d.find station name with
  | .directory next => return next
  | .missing => throw .notFound
  | .file _ | .device _ => throw .notDirectory

/-- The directory that the last name of a path is in. -/
def approach (d : Directory) (path : Path) : Except FileError Station :=
  path.names.dropLast.foldlM d.enter (.ofPath path)

/-! ## Files -/

/-- Read what a device holds; the two for output hold nothing. -/
def readDevice (d : Directory) : Device → Except FileError String
  | .input => decoded d.standard
  | .null | .output | .errorOutput => .ok ""

/-- Write to a device. -/
def writeDevice (d : Directory) (text : String) : Device → Directory
  | .output => d.print text
  | .errorOutput => d.printError text
  | .null | .input => d

/-- Read the file at a path. -/
def read (d : Directory) (path : String) : Except FileError String := do
  let path ← Path.ofText path
  let station ← d.approach path
  match path.names.getLast? with
  | none => throw .isDirectory
  | some name =>
    match ← d.find station name with
    | .directory _ => throw .isDirectory
    | .missing => throw .notFound
    | .file text => if path.slash then throw .notDirectory else return text
    | .device device => if path.slash then throw .notDirectory else d.readDevice device

/-- Write the file at a path, and make it if it is missing.  A slash after its name asks
for a directory, whether or not there is one. -/
def write (d : Directory) (path text : String) : Except FileError Directory := do
  let path ← Path.ofText path
  let station ← d.approach path
  match path.names.getLast? with
  | none => throw .isDirectory
  | some name =>
    if path.slash then throw .isDirectory
    match ← d.find station name with
    | .directory _ => throw .isDirectory
    | .device device => return d.writeDevice text device
    | .file _ | .missing => return if station = .here then d.put name text else d

/-- The directory as a host. -/
def host : Host (StateM Directory) where
  readStandard := return decoded (← get).standard
  readFile path := return (← get).read path
  writeFile path text := do
    match (← get).write path text with
    | .ok d =>
      set d
      return .ok ()
    | .error error => return .error error
  print text := modify (·.print text)
  printError text := modify (·.printError text)

end Directory

end FrontEnd.Command
