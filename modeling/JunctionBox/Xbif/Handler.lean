import JunctionBox.Foundations.Lockstep
import JunctionBox.Foundations.Objects
import JunctionBox.Util.BitVector
import Mathlib.Data.List.DropRight

/-!
# The handler for XBIF documents

`XBIFParser` is a SAX handler: the parser of the platform reads a document and
calls the handler for the start of the document, for start tags, end tags and
pieces of text.  The handler keeps one number that says where in the document it
is, one buffer for text, and the variable, observation and table it is working
on.

A call that throws ends the parse; what it throws here is the handler as it
leaves it, since the next document is read by the same object.  Its maps hold
references, and an end tag can change an object that is in a map already: the
objects of each class, the current one and the map are one `Objects`.  The counts
of elements, attributes and characters, which are only printed, are left out, and
names that are keywords of Lean are shortened.
-/

namespace JunctionBox.Xbif

/-- A Java string. -/
abbrev JString := List Char

/-- `Character.toLowerCase(Character.toUpperCase(c))`, as far as letters without accents come out
of it. -/
def foldCase (c : Char) : Char :=
  if c = 'ı' ∨ c = 'İ' then 'i'
  else if c = 'ſ' then 's'
  else if c = 'K' then 'k'
  else c.toLower

/-- `String.equalsIgnoreCase` with a word of letters without accents. -/
def equalsIgnoreCase (s word : JString) : Bool := s.map foldCase = word.map foldCase

/-- Characters that `String.trim` removes. -/
def isBlank (c : Char) : Bool := c ≤ ' '

/-- `String.trim`. -/
def trim (s : JString) : JString := (s.dropWhile isBlank).rdropWhile isBlank

/-- The names of elements that the handler knows. -/
inductive Word where
  | vbl | probability | values | name | observed | given | table | forVbl
deriving DecidableEq

/-- As the source spells them. -/
def Word.spelling : Word → JString
  | .vbl => "Variable".toList
  | .probability => "Probability".toList
  | .values => "Values".toList
  | .name => "Name".toList
  | .observed => "Observed".toList
  | .given => "Given".toList
  | .table => "Table".toList
  | .forVbl => "For".toList

/-- `local.equalsIgnoreCase(word)`. -/
def isWord (localName : JString) (word : Word) : Bool := equalsIgnoreCase localName word.spelling

/-- `parserState`: outside of any tags we care about, or inside of one, in the order of the
numbers `0` to `8`. -/
inductive ParserState where
  | outside | inVariable | inProbability | inValues | inGiven | inObserved | inTable | inFor
  | inName
deriving DecidableEq

/-- The `Variable` class; a string may be `null`. -/
structure JVariable where
  name : Option JString
  numVals : ℤ
deriving DecidableEq

/-- The `Observation` class. -/
structure JObservation where
  vbl : Option JString
  value : ℤ
deriving DecidableEq

/-- The `Table` class. -/
structure JTable (T : Type) where
  forVbl : Option JString
  given : List JString
  table : Option T
deriving DecidableEq

/-- `HashMap<String, _>`; the key may be `null`. -/
abbrev HashMap (β : Type) := Option JString → Option β

/-- `HashMap.put`. -/
def HashMap.put {β : Type} (this : HashMap β) (key : Option JString) (value : β) : HashMap β :=
  Function.update this key (some value)

/-- The maps that a parse fills, with the objects in them. -/
@[ext]
structure Maps (T : Type) where
  vbls : HashMap JVariable
  obs : HashMap JObservation
  tables : HashMap (JTable T)

/-- New maps. -/
def Maps.empty (T : Type) : Maps T := ⟨fun _ => none, fun _ => none, fun _ => none⟩

/-- `XBIFParser`; each class has its objects, with the current one (`cVariable`, `cObs` and
`cTable`) and its map (`variables`, `obs` and `tables`). -/
structure XBIFParser (T : Type) where
  fNumVbls : ℕ
  fNumObs : ℕ
  mNumVals : ℤ
  mNumPar : ℕ
  cNumPar : ℕ
  parserState : ParserState
  cbuf : JString
  vbls : Objects (Option JString) JVariable
  obs : Objects (Option JString) JObservation
  tables : Objects (Option JString) (JTable T)

/-- What is left of a run. -/
def left {α : Type} : Except α α → α
  | .ok a => a
  | .error a => a

/-- What the platform's parser calls. -/
inductive Event where
  | startElement (localName : JString)
  | endElement (localName : JString)
  | characters (ch : JString)
  | ignorableWhitespace (ch : JString)
  | processingInstruction (target data : JString)

namespace XBIFParser

variable {T : Type}

/-- A new object. -/
def new (T : Type) : XBIFParser T where
  fNumVbls := 0
  fNumObs := 0
  mNumVals := 0
  mNumPar := 0
  cNumPar := 0
  parserState := .outside
  cbuf := []
  vbls := Objects.empty _ _
  obs := Objects.empty _ _
  tables := Objects.empty _ _

/-- The object at `cVariable`; `none` is `null`, as for the other two. -/
def cVariable (this : XBIFParser T) : Option JVariable := this.vbls.object

/-- The object at `cObs`. -/
def cObs (this : XBIFParser T) : Option JObservation := this.obs.object

/-- The object at `cTable`. -/
def cTable (this : XBIFParser T) : Option (JTable T) := this.tables.object

/-- The maps as their objects are now. -/
def maps (this : XBIFParser T) : Maps T :=
  ⟨this.vbls.contents, this.obs.contents, this.tables.contents⟩

theorem maps_of_contents {this other : XBIFParser T} {maps : Maps T} (h : other.maps = maps)
    (hvbls : this.vbls.contents = other.vbls.contents)
    (hobs : this.obs.contents = other.obs.contents)
    (htables : this.tables.contents = other.tables.contents) : this.maps = maps := by
  rw [← h, XBIFParser.maps, XBIFParser.maps, hvbls, hobs, htables]

/-- `startDocument`. -/
def startDocument (this : XBIFParser T) : XBIFParser T :=
  { this with
    fNumVbls := 0
    fNumObs := 0
    mNumPar := 0
    mNumVals := 0
    cbuf := []
    vbls := this.vbls.clear
    obs := this.obs.clear
    tables := this.tables.clear }

/-- `startElement`. -/
def startElement (this : XBIFParser T) (localName : JString) :
    Except (XBIFParser T) (XBIFParser T) :=
  match this.parserState with
  | .outside =>
      if isWord localName .vbl then
        .ok { this with
          fNumVbls := this.fNumVbls + 1
          parserState := .inVariable
          vbls := this.vbls.create ⟨none, 0⟩ }
      else if isWord localName .probability then
        .ok { this with
          parserState := .inProbability
          tables := this.tables.create ⟨none, [], none⟩
          cNumPar := 0 }
      else .ok this
  | .inVariable =>
      if isWord localName .values then .ok { this with parserState := .inValues }
      else if isWord localName .name then .ok { this with parserState := .inName }
      else if isWord localName .observed then
        let this := { this with
          fNumObs := this.fNumObs + 1
          parserState := .inObserved
          obs := this.obs.create ⟨none, 0⟩ }
        match this.cVariable with
        | some cVariable => .ok { this with obs := this.obs.assign ⟨cVariable.name, 0⟩ }
        | none => .error this
      else .ok this
  | .inProbability =>
      let this := if isWord localName .given then
        { this with parserState := .inGiven, cNumPar := this.cNumPar + 1 } else this
      let this := if isWord localName .table then { this with parserState := .inTable } else this
      let this := if isWord localName .forVbl then { this with parserState := .inFor } else this
      .ok this
  | _ => .ok this

section Texts

variable (parseInt : JString → Option ℤ) (parseTable : JString → T)

/-- `endElement`. -/
def endElement (this : XBIFParser T) (localName : JString) :
    Except (XBIFParser T) (XBIFParser T) :=
  if this.parserState ≠ .outside then
    if isWord localName .vbl then
      let this := { this with parserState := .outside }
      match this.cVariable with
      | some cVariable => .ok { this with vbls := this.vbls.put cVariable.name }
      | none => .error this
    else if isWord localName .observed then
      let this := { this with parserState := .inVariable }
      match parseInt (trim this.cbuf), this.cObs with
      | some value, some cObs => .ok { this with
          obs := (this.obs.assign { cObs with value := value }).put cObs.vbl
          cbuf := [] }
      | _, _ => .error this
    else if isWord localName .name then
      let this := { this with parserState := .inVariable }
      match this.cVariable with
      | some cVariable => .ok { this with
          vbls := this.vbls.assign { cVariable with name := some (trim this.cbuf) }
          cbuf := [] }
      | none => .error this
    else if isWord localName .probability then
      let this := { this with
        parserState := .outside
        mNumPar := max this.cNumPar this.mNumPar }
      match this.cTable with
      | some cTable => .ok { this with tables := this.tables.put cTable.forVbl }
      | none => .error this
    else if isWord localName .values then
      match parseInt (trim this.cbuf), this.cVariable with
      | some cNumVals, some cVariable => .ok { this with
          vbls := this.vbls.assign { cVariable with numVals := cNumVals }
          mNumVals := max cNumVals this.mNumVals
          cbuf := []
          parserState := .inVariable }
      | _, _ => .error this
    else if isWord localName .given then
      match this.cTable with
      | some cTable => .ok { this with
          tables := this.tables.assign { cTable with given := cTable.given ++ [trim this.cbuf] }
          cbuf := []
          parserState := .inProbability }
      | none => .error this
    else if isWord localName .table then
      match this.cTable with
      | some cTable => .ok { this with
          tables := this.tables.assign { cTable with table := some (parseTable (trim this.cbuf)) }
          cbuf := []
          parserState := .inProbability }
      | none => .error this
    else if isWord localName .forVbl then
      match this.cTable with
      | some cTable => .ok { this with
          tables := this.tables.assign { cTable with forVbl := some (trim this.cbuf) }
          cbuf := []
          parserState := .inProbability }
      | none => .error this
    else .ok { this with cbuf := [] }
  else .ok this

/-- A newline in the text of a table becomes a blank. -/
def lineToBlank (c : Char) : Char := if c = '\n' then ' ' else c

/-- `characters`. -/
def characters (this : XBIFParser T) (ch : JString) : XBIFParser T :=
  if this.parserState ≠ .outside then
    if this.parserState ≠ .inTable then { this with cbuf := this.cbuf ++ ch }
    else { this with cbuf := this.cbuf ++ ch.map lineToBlank }
  else this

/-- One call. -/
def handle (this : XBIFParser T) : Event → Except (XBIFParser T) (XBIFParser T)
  | .startElement localName => this.startElement localName
  | .endElement localName => this.endElement parseInt parseTable localName
  | .characters ch => .ok (this.characters ch)
  | .ignorableWhitespace _ => .ok this
  | .processingInstruction _ _ => .ok this

/-- The calls up to the first that throws. -/
def run (this : XBIFParser T) (events : List Event) : Except (XBIFParser T) (XBIFParser T) :=
  events.foldlM (handle parseInt parseTable) this

/-- The calls for a document, or for the part of it before the platform's parser gives up. -/
def parse (this : XBIFParser T) (events : List Event) : Except (XBIFParser T) (XBIFParser T) :=
  this.startDocument.run parseInt parseTable events

end Texts

/-- A number of values that stands in a probability element changes the variable of the element
before, which is in the map by then. -/
example : (left ((new JString).parse (fun _ => some 3) id [
    .startElement "VARIABLE".toList, .endElement "VARIABLE".toList,
    .startElement "PROBABILITY".toList, .startElement "VALUES".toList,
    .endElement "VALUES".toList])).maps.vbls none = some ⟨none, 3⟩ := by
  rfl

end XBIFParser

end JunctionBox.Xbif
