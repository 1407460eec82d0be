import Inflection.Collection
import Inflection.Text.Basic
import Inflection.Text.Quoted
import Inflection.Text.Utf8

/-! # File trees

A tree has a file or a directory at each place that paths lead to. Texts for a file that is being
written are collected, passed on together, and held back once more before they are handed over. What
has been handed over when can be seen only if something else is appended to the same file
meanwhile. -/

namespace Inflection

/-! ## Paths -/

/-- A path in parts. Parts that lead nowhere, the empty one and a single dot, are left out; two dots
lead upwards and stay. -/
structure Path where
  /-- The slashes at the start: none, one or two. -/
  root : Nat := 0
  parts : List Text
deriving DecidableEq, Repr

namespace Path

/-- Exactly two slashes at the start are kept apart; any other number above zero counts as one. -/
def ofText (t : Text) : Path where
  root :=
    let slashes := (t.takeWhile (· = '/')).length
    if slashes ≤ 2 then slashes else 1
  parts := (t.splitOn '/').filter fun p => p ≠ [] ∧ p ≠ ['.']

def toText (p : Path) : Text :=
  if p.root = 0 ∧ p.parts = [] then ['.']
  else List.replicate p.root '/' ++ ['/'].intercalate p.parts

/-- Whether a path starts at the root of the file system. -/
def isAbsolute (p : Path) : Bool := p.root ≠ 0

/-- The path with each upward step taken back together with the part before it. -/
def collapse (p : Path) : Path :=
  { p with parts := (p.parts.foldl step []).reverse }
where
  step (done : List Text) (part : Text) : List Text :=
    if part = ['.', '.'] then
      match done with
      | [] => if p.root = 0 then [part] else []
      | up :: done => if up = ['.', '.'] then part :: up :: done else done
    else part :: done

end Path

/-! ## Trees -/

inductive FileNode where
  | file (bytes : ByteArray)
  | directory

namespace FileNode

instance : DecidableEq FileNode
  | .file a, .file b =>
    match ByteArray.instDecidableEq a b with
    | isTrue h => isTrue (h ▸ rfl)
    | isFalse h => isFalse fun e => h (file.inj e)
  | .directory, .directory => isTrue rfl
  | .file _, .directory => isFalse nofun
  | .directory, .file _ => isFalse nofun

end FileNode

/-- What stands at each place, a chain of names from the root on, and the place from which relative
paths start. -/
structure FileTree where
  nodes : Table (List Text) FileNode := []
  here : List Text := []
deriving DecidableEq

/-- Why a path cannot be opened. -/
inductive AccessFault where
  | notFound
  | notDirectory
  | isDirectory
  /-- A name on the way, or the path itself, takes more bytes than it may. -/
  | tooLong
  /-- A name holds the null character, which no name can. -/
  | nullInName
deriving DecidableEq, Repr

/-- A refusal to open a path. -/
structure AccessError where
  fault : AccessFault
  path : Path
deriving DecidableEq, Repr

namespace AccessError

def message (e : AccessError) : String :=
  match e.fault with
  | .notFound => "[Errno 2] No such file or directory: " ++ e.path.toText.quoted
  | .notDirectory => "[Errno 20] Not a directory: " ++ e.path.toText.quoted
  | .isDirectory => "[Errno 21] Is a directory: " ++ e.path.toText.quoted
  | .tooLong => "[Errno 36] File name too long: " ++ e.path.toText.quoted
  | .nullInName => "embedded null byte"

end AccessError

/-- Why the lines of a file cannot be had. -/
inductive ReadFault where
  | access (error : AccessError)
  | encoding (fault : Utf8.Fault)
deriving DecidableEq, Repr

structure ReadError where
  path : Path
  fault : ReadFault
deriving DecidableEq, Repr

namespace ReadError

def message (e : ReadError) : String :=
  "Could not read " ++ String.ofList e.path.toText ++ ": " ++
    match e.fault with
    | .access error => error.message
    | .encoding fault => fault.message

/-- The refusal of a path that can lead to no file at all. -/
def impossible? (e : ReadError) : Option AccessError :=
  match e.fault with
  | .access error => if error.fault = .nullInName then some error else none
  | .encoding _ => none

end ReadError

namespace FileTree

/-- What stands at a place; at the root there is a directory. -/
def node? (t : FileTree) (place : List Text) : Option FileNode :=
  if place = [] then some .directory else t.nodes.get? place

/-- The tree with a node where a path leads, and with a directory at each place on the way there at
which nothing stands yet. -/
def put (t : FileTree) (p : Path) (node : FileNode) : FileTree :=
  go t (if p.isAbsolute then [] else t.here) p.parts
where
  go (t : FileTree) (place : List Text) : List Text → FileTree
    | [] => { t with nodes := t.nodes.put place node }
    | part :: parts =>
      let t :=
        if (t.node? place).isSome then t else { t with nodes := t.nodes.put place .directory }
      go t (if part = ['.', '.'] then place.dropLast else place ++ [part]) parts

/-- The most bytes that a name may take. -/
def maxName : Nat := 255

/-- The most bytes that a path may take. -/
def maxPath : Nat := 4095

/-- Follows a path from a place on. All but the last place on the way have to be directories; two
dots lead to the one above, and from the root nowhere else. -/
def follow (t : FileTree) : (place : List Text) → List Text → Except AccessFault (List Text)
  | place, [] => .ok place
  | place, part :: parts =>
    match t.node? place with
    | none => .error .notFound
    | some (.file _) => .error .notDirectory
    | some .directory =>
      if maxName < Utf8.size part then .error .tooLong
      else if part = ['.', '.'] then follow t place.dropLast parts
      else follow t (place ++ [part]) parts

/-- The place that a path leads to. -/
def resolve (t : FileTree) (p : Path) : Except AccessFault (List Text) :=
  if p.parts.any (·.contains '\x00') then .error .nullInName
  else if maxPath < Utf8.size p.toText then .error .tooLong
  else t.follow (if p.isAbsolute then [] else t.here) p.parts

/-- Whether anything stands where a path leads; of one that is too long this cannot be told. -/
def contains (t : FileTree) (p : Path) : Except AccessError Bool :=
  match t.resolve p with
  | .ok place => .ok (t.node? place).isSome
  | .error .tooLong => .error ⟨.tooLong, p⟩
  | .error _ => .ok false

/-- The place of a file that can be written: there may be one already, but no directory. -/
def writable (t : FileTree) (p : Path) : Except AccessError (List Text) :=
  match t.resolve p with
  | .error fault => .error ⟨fault, p⟩
  | .ok place =>
    match t.node? place with
    | some .directory => .error ⟨.isDirectory, p⟩
    | _ => .ok place

/-- The bytes of a file. -/
def bytes (t : FileTree) (p : Path) : Except AccessError ByteArray :=
  match t.resolve p with
  | .error fault => .error ⟨fault, p⟩
  | .ok place =>
    match t.node? place with
    | none => .error ⟨.notFound, p⟩
    | some .directory => .error ⟨.isDirectory, p⟩
    | some (.file bytes) => .ok bytes

/-- The lines of a file, whichever way its line breaks are written. -/
def readLines (t : FileTree) (p : Path) : Except ReadError (List Text) :=
  match t.bytes p with
  | .error error => .error ⟨p, .access error⟩
  | .ok bytes =>
    match Utf8.decode bytes with
    | .error fault => .error ⟨p, .encoding fault⟩
    | .ok text => .ok text.unifyBreaks.lines

/-- The tree with a text as the only content of the file at a place. -/
def write (t : FileTree) (place : List Text) (text : Text) : FileTree :=
  { t with nodes := t.nodes.put place (.file (Utf8.encode text)) }

/-- The tree with a text after the content of the file at a place. -/
def append (t : FileTree) (place : List Text) (text : Text) : FileTree :=
  match t.node? place with
  | some (.file bytes) => { t with nodes := t.nodes.put place (.file (bytes ++ Utf8.encode text)) }
  | _ => t.write place text

/-- The tree with some bytes over the content of the file at a place, from a position on. What
stands behind them stays. -/
def overwrite (t : FileTree) (place : List Text) (position : Nat) (bytes : ByteArray) : FileTree :=
  let old := match t.node? place with
    | some (.file old) => old
    | _ => .empty
  let behind := old.extract (position + bytes.size) old.size
  { t with nodes := t.nodes.put place (.file (old.extract 0 position ++ bytes ++ behind)) }

end FileTree

/-! ## Files that are being written -/

/-- A file that is written from its start: what has been handed over ends at `position`. -/
structure Writer where
  place : List Text
  position : Nat := 0
  /-- What has been passed on, and not handed over. -/
  held : ByteArray := .empty
  /-- What has not been passed on. -/
  pending : ByteArray := .empty

namespace Writer

/-- How many bytes are collected before they are passed on. -/
def maxPending : Nat := 8192

/-- How many bytes may be held back. -/
def maxHeld : Nat := 4096

/-- Starts to write a file, which is empty then. -/
def start (place : List Text) (t : FileTree) : Writer × FileTree := ({ place }, t.write place [])

/-- Hands bytes over. -/
def handOver (w : Writer) (t : FileTree) (bytes : ByteArray) : Writer × FileTree :=
  ({ w with position := w.position + bytes.size }, t.overwrite w.place w.position bytes)

/-- Hands over what is held back. -/
def release (w : Writer) (t : FileTree) : Writer × FileTree :=
  { w with held := .empty }.handOver t w.held

/-- Passes on what is pending. If it is too much together with what is held back, that is handed
over first, and if it is too much by itself, it is handed over too. -/
def pass (w : Writer) (t : FileTree) : Writer × FileTree :=
  let bytes := w.pending
  let w := { w with pending := .empty }
  if w.held.size + bytes.size ≤ maxHeld then ({ w with held := w.held ++ bytes }, t)
  else
    let (w, t) := w.release t
    if bytes.size ≤ maxHeld then ({ w with held := bytes }, t) else w.handOver t bytes

/-- Takes a text. What is pending is passed on first if both are too much, and the text at once if
it is enough by itself. -/
def write (w : Writer) (t : FileTree) (text : Text) : Writer × FileTree :=
  let bytes := Utf8.encode text
  let (w, t) := if maxPending < w.pending.size + bytes.size then w.pass t else (w, t)
  let w := { w with pending := w.pending ++ bytes }
  if maxPending ≤ w.pending.size then w.pass t else (w, t)

/-- Hands over all that there is. -/
def finish (w : Writer) (t : FileTree) : Writer × FileTree :=
  let (w, t) := w.pass t
  w.release t

end Writer

end Inflection
