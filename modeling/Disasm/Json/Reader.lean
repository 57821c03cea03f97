import Disasm.Json
import Disasm.Json.Scan

/-! # Reading JSON

A text is read one character at a time with a stack of the arrays and objects
that are open. Reading never fails as a whole: where the text stops being JSON,
the open arrays and objects end with a cut.
-/

namespace Disasm.Json

/-- An open array, or an open object and the key whose value is being read. Items and
members stand in reverse. -/
inductive Frame where
  | array (done : List Json)
  | object (done : List Member) (key : Option String)

/-- What a string is read for: as a value, or as the key behind some members. -/
inductive Place where
  | value
  | key (done : List Member)

inductive Mode where
  | value
  | firstItem
  | firstKey
  | nextKey (done : List Member)
  | colon (done : List Member) (key : Option String)
  | word (rest : List Char) (value : Json)
  | number (scan : NumberScan)
  | string (place : Place) (scan : StringScan)
  | after (value : Json)

/-- What a text says, and whether it says nothing else. -/
structure Reading where
  value : Json
  complete : Bool

/-- The value inside some open frames, all of which end with it. -/
def closeAll (inner : Json) : List Frame → Json
  | [] => inner
  | .array done :: frames => closeAll (.array (inner :: done).reverse) frames
  | .object done key :: frames => closeAll (.object ((key, inner) :: done).reverse) frames

/-- An object that ends with a cut in place of a key. -/
def cutObject (done : List Member) : Json := .object ((none, .cut) :: done).reverse

/-- The reading of a text that stops being JSON here. -/
def stop (frames : List Frame) : Mode → Reading
  | .value | .word _ _ | .number _ | .string .value _ => ⟨closeAll .cut frames, false⟩
  | .firstItem => ⟨closeAll (.array [.cut]) frames, false⟩
  | .firstKey => ⟨closeAll (cutObject []) frames, false⟩
  | .nextKey done | .string (.key done) _ => ⟨closeAll (cutObject done) frames, false⟩
  | .colon done key => ⟨closeAll (.object ((key, .cut) :: done).reverse) frames, false⟩
  | .after v =>
    match frames with
    | [] => ⟨v, false⟩
    | .array done :: frames => ⟨closeAll (.array (.cut :: v :: done).reverse) frames, false⟩
    | .object done key :: frames => ⟨closeAll (cutObject ((key, v) :: done)) frames, false⟩

def finish (frames : List Frame) (mode : Mode) : Reading :=
  match mode, frames with
  | .after v, [] => ⟨v, true⟩
  | .number n, [] =>
    match n.numeral? with
    | some m => ⟨.number m, true⟩
    | none => stop frames mode
  | _, _ => stop frames mode

def isBlank (c : Char) : Bool := c == ' ' || c == '\n' || c == '\t' || c == '\r'

abbrev State := Mode × List Frame

def beginValue? (c : Char) (frames : List Frame) : Option State :=
  match c with
  | '[' => some (.firstItem, frames)
  | '\x7b' => some (.firstKey, frames)
  | '"' => some (.string .value {}, frames)
  | 't' => some (.word ['r', 'u', 'e'] (.bool true), frames)
  | 'f' => some (.word ['a', 'l', 's', 'e'] (.bool false), frames)
  | 'n' => some (.word ['u', 'l', 'l'] .null, frames)
  | c => (NumberScan.start? c).map fun n => (.number n, frames)

def afterValue? (v : Json) (c : Char) (frames : List Frame) : Option State :=
  if isBlank c then some (.after v, frames)
  else
    match c, frames with
    | ',', .array done :: frames => some (.value, .array (v :: done) :: frames)
    | ']', .array done :: frames => some (.after (.array (v :: done).reverse), frames)
    | ',', .object done key :: frames => some (.nextKey ((key, v) :: done), frames)
    | '\x7d', .object done key :: frames =>
      some (.after (.object ((key, v) :: done).reverse), frames)
    | _, _ => none

/-- Takes one character, if the text can go on with it. -/
def step? : State → Char → Option State
  | (.value, frames), c =>
    if isBlank c then some (.value, frames) else beginValue? c frames
  | (.firstItem, frames), c =>
    if isBlank c then some (.firstItem, frames)
    else if c = ']' then some (.after (.array []), frames)
    else beginValue? c (.array [] :: frames)
  | (.firstKey, frames), c =>
    if isBlank c then some (.firstKey, frames)
    else if c = '\x7d' then some (.after (.object []), frames)
    else if c = '"' then some (.string (.key []) {}, frames)
    else none
  | (.nextKey done, frames), c =>
    if isBlank c then some (.nextKey done, frames)
    else if c = '"' then some (.string (.key done) {}, frames)
    else none
  | (.colon done key, frames), c =>
    if isBlank c then some (.colon done key, frames)
    else if c = ':' then some (.value, .object done key :: frames)
    else none
  | (.word [] v, frames), c => afterValue? v c frames
  | (.word (d :: ds) v, frames), c =>
    if c = d then some (if ds.isEmpty then .after v else .word ds v, frames) else none
  | (.number n, frames), c =>
    match n.step? c with
    | some n => some (.number n, frames)
    | none => n.numeral?.bind fun m => afterValue? (.number m) c frames
  | (.string place s, frames), c =>
    if c = '"' ∧ s.closes then
      match place with
      | .value => some (.after (.string s.text?), frames)
      | .key done => some (.colon done s.text?, frames)
    else (s.step? c).map fun s => (.string place s, frames)
  | (.after v, frames), c => afterValue? v c frames

def readFrom : State → List Char → Reading
  | (mode, frames), [] => finish frames mode
  | (mode, frames), c :: cs =>
    match step? (mode, frames) c with
    | some state => readFrom state cs
    | none => stop frames mode

def read (s : String) : Reading := readFrom (.value, []) s.toList

/-- The value of a text that is JSON and nothing else. -/
def parse? (s : String) : Option Json :=
  let r := read s
  if r.complete && r.value.intact then some r.value else none

end Disasm.Json
