import JunctionBox.Xbif.Handler

/-!
# Reading a document

A `Document` is the sequence of calls for a document: variable elements,
probability elements and anything else between them.  Texts come in any number
of pieces.  `Document.read` says what the document says, element by element and
without the handler; it stops at a number that is none.
-/

namespace JunctionBox.Xbif

open XBIFParser

/-! ## Documents -/

/-- A name that the handler takes for the word. -/
def Tag (word : Word) : Type := {localName : JString // isWord localName word = true}

theorem isWord_capitals (word : Word) :
    isWord (word.spelling.map Char.toUpper) word = true := by
  cases word <;> decide

/-- The word in capitals. -/
def Tag.capitals (word : Word) : Tag word :=
  ⟨word.spelling.map Char.toUpper, isWord_capitals word⟩

/-- A name that the handler does not know. -/
def UnknownTag : Type := {localName : JString // ∀ word, isWord localName word = false}

/-- A text, in the pieces in which it is handed over. -/
abbrev Text := List JString

/-- The text itself. -/
def Text.string (this : Text) : JString := this.flatten

/-- The calls for a text. -/
def Text.events (this : Text) : List Event := this.map Event.characters

/-- The calls for an element that contains only text. -/
def leafEvents (localName : JString) (text : Text) : List Event :=
  Event.startElement localName :: (text.events ++ [Event.endElement localName])

/-- What may stand between the elements that matter. -/
inductive Filler where
  | space (ch : JString) (blank : ∀ c ∈ ch, isBlank c = true)
  | ignorable (ch : JString)
  | instruction (target data : JString)
  | leaf (tag : UnknownTag) (text : Text)

def Filler.events : Filler → List Event
  | .space ch _ => [.characters ch]
  | .ignorable ch => [.ignorableWhitespace ch]
  | .instruction target data => [.processingInstruction target data]
  | .leaf tag text => leafEvents tag.1 text

/-- What stands in a variable element after the name. -/
inductive VariableChild where
  | filler (filler : Filler)
  | values (tag : Tag .values) (text : Text)
  | observed (tag : Tag .observed) (text : Text)

namespace VariableChild

def events : VariableChild → List Event
  | filler this => this.events
  | values tag text => leafEvents tag.1 text
  | observed tag text => leafEvents tag.1 text

def valuesText : VariableChild → Option Text
  | values _ text => some text
  | _ => none

def observedText : VariableChild → Option Text
  | observed _ text => some text
  | _ => none

end VariableChild

/-- A variable element: a name, and after it the number of values and perhaps an observation in
any order. -/
structure VariableElement where
  tag : Tag .vbl
  before : List Filler
  nameTag : Tag .name
  name : Text
  children : List VariableChild
  values : Text
  observed : Option Text
  values_eq : children.filterMap VariableChild.valuesText = [values]
  observed_eq : children.filterMap VariableChild.observedText = observed.toList

def VariableElement.events (this : VariableElement) : List Event :=
  Event.startElement this.tag.1 :: (this.before.flatMap Filler.events ++
    leafEvents this.nameTag.1 this.name ++ this.children.flatMap VariableChild.events ++
    [Event.endElement this.tag.1])

/-- What stands in a probability element. -/
inductive ProbabilityChild where
  | filler (filler : Filler)
  | forVbl (tag : Tag .forVbl) (text : Text)
  | given (tag : Tag .given) (text : Text)
  | table (tag : Tag .table) (text : Text)

namespace ProbabilityChild

def events : ProbabilityChild → List Event
  | filler this => this.events
  | forVbl tag text => leafEvents tag.1 text
  | given tag text => leafEvents tag.1 text
  | table tag text => leafEvents tag.1 text

def forText : ProbabilityChild → Option Text
  | forVbl _ text => some text
  | _ => none

def givenText : ProbabilityChild → Option Text
  | given _ text => some text
  | _ => none

def tableText : ProbabilityChild → Option Text
  | table _ text => some text
  | _ => none

end ProbabilityChild

/-- A probability element: the variable it is for, those given and the table, in any order. -/
structure ProbabilityElement where
  tag : Tag .probability
  children : List ProbabilityChild
  forVbl : Text
  given : List Text
  table : Text
  forVbl_eq : children.filterMap ProbabilityChild.forText = [forVbl]
  given_eq : children.filterMap ProbabilityChild.givenText = given
  table_eq : children.filterMap ProbabilityChild.tableText = [table]

def ProbabilityElement.events (this : ProbabilityElement) : List Event :=
  Event.startElement this.tag.1 ::
    (this.children.flatMap ProbabilityChild.events ++ [Event.endElement this.tag.1])

/-- A call that begins neither a variable nor a probability element. -/
def Event.IsOutside : Event → Prop
  | .startElement localName =>
      isWord localName .vbl = false ∧ isWord localName .probability = false
  | _ => True

/-- A part of a document. -/
inductive Item where
  | outside (event : Event) (h : event.IsOutside)
  | variableElement (this : VariableElement)
  | probabilityElement (this : ProbabilityElement)

def Item.events : Item → List Event
  | .outside event _ => [event]
  | .variableElement this => this.events
  | .probabilityElement this => this.events

/-- A document. -/
abbrev Document := List Item

/-- The calls for a document. -/
def Document.events (this : Document) : List Event := this.flatMap Item.events

/-! ## What a document says -/

section Reading

variable {T : Type} (parseInt : JString → Option ℤ) (parseTable : JString → T)

/-- The number in a text. -/
def Text.number (this : Text) : Option ℤ := parseInt (trim this.string)

/-- The variable and the observation of the element. -/
def VariableElement.read (this : VariableElement) (maps : Maps T) : Option (Maps T) := do
  let name := some (trim this.name.string)
  let numVals ← this.values.number parseInt
  let obs ← this.observed.elim (some maps.obs) fun text =>
    (text.number parseInt).map fun value => maps.obs.put name ⟨name, value⟩
  return { maps with vbls := maps.vbls.put name ⟨name, numVals⟩, obs := obs }

/-- The table of the element. -/
def ProbabilityElement.read (this : ProbabilityElement) (maps : Maps T) : Maps T :=
  let forVbl := some (trim this.forVbl.string)
  let given := this.given.map fun text => trim text.string
  let table := some (parseTable (trim this.table.string))
  { maps with tables := maps.tables.put forVbl ⟨forVbl, given, table⟩ }

def Item.read (maps : Maps T) : Item → Option (Maps T)
  | .outside _ _ => some maps
  | .variableElement this => this.read parseInt maps
  | .probabilityElement this => some (this.read parseTable maps)

/-- What the document says, later elements replacing earlier ones of the same name. -/
def Document.read (this : Document) : Option (Maps T) :=
  this.foldlM (Item.read parseInt parseTable) (Maps.empty T)

end Reading

end JunctionBox.Xbif
