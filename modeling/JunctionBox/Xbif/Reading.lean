import JunctionBox.Xbif.Document

/-!
# The handler reads the document

Inside an element the handler and the reading run in lockstep
(`lockstep_variableChildren`): the buffer holds only blanks between the children,
every child leaves it so, and the trimmed buffer is the trimmed text of the
child.  `toOption_parse` puts this together for whole documents.
-/

namespace JunctionBox.Xbif

open XBIFParser

/-! ## The pieces of a text -/

theorem isWord_eq {localName : JString} {word : Word} (h : isWord localName word = true)
    (other : Word) : isWord localName other = decide (word = other) := by
  have hfold : ∀ w : Word, isWord localName w = true ↔
      localName.map foldCase = w.spelling.map foldCase := fun w => decide_eq_true_iff
  have hinj : ∀ v w : Word, v.spelling.map foldCase = w.spelling.map foldCase ↔ v = w := by
    intro v w
    cases v <;> cases w <;> decide
  rw [Bool.eq_iff_iff, hfold, decide_eq_true_eq, (hfold word).mp h, hinj]

/-- Blanks before a text are trimmed away. -/
theorem trim_append {blanks s : JString} (h : ∀ c ∈ blanks, isBlank c = true) :
    trim (blanks ++ s) = trim s := by
  rw [trim, List.dropWhile_append_of_pos h]
  rfl

/-- A newline is as blank as the blank it becomes. -/
theorem trim_map (s : JString) : trim (s.map lineToBlank) = (trim s).map lineToBlank := by
  have hblank : isBlank ∘ lineToBlank = isBlank := by
    funext c
    by_cases hc : c = '\n'
    · subst hc
      decide
    · simp [lineToBlank, hc]
  rw [trim, trim, List.dropWhile_map, hblank, List.rdropWhile, List.rdropWhile, ← List.map_reverse,
    List.dropWhile_map, hblank, List.map_reverse]

section Handling

variable {T : Type} (parseInt : JString → Option ℤ) (parseTable : JString → T)

theorem run_append (p : XBIFParser T) (l l' : List Event) :
    p.run parseInt parseTable (l ++ l') =
      p.run parseInt parseTable l >>= fun q => q.run parseInt parseTable l' := List.foldlM_append

theorem run_cons (p : XBIFParser T) (event : Event) (l : List Event) :
    p.run parseInt parseTable (event :: l) =
      p.handle parseInt parseTable event >>= fun q => q.run parseInt parseTable l := rfl

/-- However a text is cut, the buffer gets all of it. -/
theorem run_text {p : XBIFParser T} (hout : p.parserState ≠ .outside)
    (htable : p.parserState ≠ .inTable) (text : Text) :
    p.run parseInt parseTable text.events = .ok { p with cbuf := p.cbuf ++ text.string } := by
  induction text generalizing p with
  | nil => simp [Text.events, Text.string, XBIFParser.run, pure, Except.pure]
  | cons ch text ih =>
      have hch : p.handle parseInt parseTable (.characters ch) =
          .ok { p with cbuf := p.cbuf ++ ch } := by
        simp only [handle, characters, if_pos hout, if_pos htable]
      rw [Text.events, List.map_cons, run_cons, hch]
      have hstep := ih (p := { p with cbuf := p.cbuf ++ ch }) hout htable
      refine Eq.trans hstep ?_
      simp only [Text.string, List.flatten_cons, List.append_assoc]

theorem run_tableText {p : XBIFParser T} (htable : p.parserState = .inTable) (text : Text) :
    p.run parseInt parseTable text.events =
      .ok { p with cbuf := p.cbuf ++ text.string.map lineToBlank } := by
  induction text generalizing p with
  | nil => simp [Text.events, Text.string, XBIFParser.run, pure, Except.pure]
  | cons ch text ih =>
      have hch : p.handle parseInt parseTable (.characters ch) =
          .ok { p with cbuf := p.cbuf ++ ch.map lineToBlank } := by
        simp [handle, characters, htable]
      rw [Text.events, List.map_cons, run_cons, hch]
      have hstep := ih (p := { p with cbuf := p.cbuf ++ ch.map lineToBlank }) htable
      refine Eq.trans hstep ?_
      simp only [Text.string, List.flatten_cons, List.map_append, List.append_assoc]

/-- The end tag of an element of text sees the text behind what was in the buffer. -/
theorem run_leaf {p q r : XBIFParser T} {localName : JString} {text : Text}
    (hstart : p.startElement localName = .ok q)
    (htext : q.run parseInt parseTable text.events = .ok r) :
    p.run parseInt parseTable (leafEvents localName text) =
      r.endElement parseInt parseTable localName := by
  have hp : p.handle parseInt parseTable (.startElement localName) = .ok q := hstart
  rw [leafEvents, run_cons, hp]
  show q.run parseInt parseTable (text.events ++ [Event.endElement localName]) = _
  rw [run_append, htext]
  show (r.endElement parseInt parseTable localName >>= fun q => Except.ok q) = _
  cases r.endElement parseInt parseTable localName <;> rfl

theorem run_flatMap {α : Type} (events : α → List Event) (l : List α) (p : XBIFParser T) :
    p.run parseInt parseTable (l.flatMap events) =
      l.foldlM (fun (q : XBIFParser T) a => q.run parseInt parseTable (events a)) p := by
  induction l generalizing p with
  | nil => rfl
  | cons a l ih =>
      rw [List.flatMap_cons, run_append, List.foldlM_cons]
      congr 1
      funext q
      exact ih q

/-! ## Inside an element -/

/-- What stands between the elements that matter leaves blanks in the buffer and changes nothing
else. -/
theorem run_filler {p : XBIFParser T}
    (hstate : p.parserState = .inVariable ∨ p.parserState = .inProbability)
    (hblank : ∀ c ∈ p.cbuf, isBlank c = true) (filler : Filler) :
    ∃ cbuf, p.run parseInt parseTable filler.events = .ok { p with cbuf := cbuf } ∧
      ∀ c ∈ cbuf, isBlank c = true := by
  have hout : p.parserState ≠ .outside := by
    rcases hstate with h | h <;> rw [h] <;> decide
  have htable : p.parserState ≠ .inTable := by
    rcases hstate with h | h <;> rw [h] <;> decide
  cases filler with
  | space ch blank =>
      refine ⟨p.cbuf ++ ch, ?_, fun c hc => (List.mem_append.mp hc).elim (hblank c) (blank c)⟩
      have hrun := run_text parseInt parseTable hout htable [ch]
      simpa [Filler.events, Text.events, Text.string] using hrun
  | ignorable ch => exact ⟨p.cbuf, rfl, hblank⟩
  | instruction target data => exact ⟨p.cbuf, rfl, hblank⟩
  | leaf tag text =>
      refine ⟨[], ?_, fun c hc => absurd hc List.not_mem_nil⟩
      have hstart : p.startElement tag.1 = .ok p := by
        unfold startElement
        rcases hstate with h | h <;> simp [h, tag.2]
      rw [Filler.events,
        run_leaf parseInt parseTable hstart (run_text parseInt parseTable hout htable text)]
      simp [endElement, hout, tag.2]

/-- The handler is in a variable element and holds the variable, which is in no map yet. -/
structure InVariable (p : XBIFParser T) (s : JVariable × Maps T) : Prop where
  parserState : p.parserState = .inVariable
  cVariable : p.cVariable = some s.1
  unlisted : p.vbls.Unlisted
  blank : ∀ c ∈ p.cbuf, isBlank c = true
  maps : p.maps = s.2

/-- The handler is in a probability element and holds the table, which is in no map yet. -/
structure InProbability (p : XBIFParser T) (s : JTable T × Maps T) : Prop where
  parserState : p.parserState = .inProbability
  cTable : p.cTable = some s.1
  unlisted : p.tables.Unlisted
  blank : ∀ c ∈ p.cbuf, isBlank c = true
  maps : p.maps = s.2

/-- The handler is outside of the elements that matter. -/
structure Outside (p : XBIFParser T) (maps : Maps T) : Prop where
  parserState : p.parserState = .outside
  blank : ∀ c ∈ p.cbuf, isBlank c = true
  maps : p.maps = maps

/-- What a handler that has thrown has put into its maps. -/
def Thrown (p : XBIFParser T) (maps : Maps T) : Prop := p.maps = maps

/-- What a child says about the variable and to the maps. -/
def VariableChild.step (s : JVariable × Maps T) :
    VariableChild → Except (Maps T) (JVariable × Maps T)
  | filler _ => .ok s
  | values _ text =>
      match text.number parseInt with
      | some numVals => .ok ({ s.1 with numVals := numVals }, s.2)
      | none => .error s.2
  | observed _ text =>
      match text.number parseInt with
      | some value => .ok (s.1, { s.2 with obs := s.2.obs.put s.1.name ⟨s.1.name, value⟩ })
      | none => .error s.2

theorem lockstep_variableChild {p : XBIFParser T} {s : JVariable × Maps T} (child : VariableChild)
    (h : InVariable p s) : Lockstep Thrown InVariable
      (p.run parseInt parseTable child.events) (child.step parseInt s) := by
  obtain ⟨hstate, hvariable, hnew, hblank, hmaps⟩ := h
  have hobject : p.vbls.object = some s.1 := hvariable
  have hempty : ∀ c ∈ ([] : JString), isBlank c = true := fun c hc => absurd hc List.not_mem_nil
  have hnumber : ∀ text : Text,
      parseInt (trim (p.cbuf ++ text.string)) = text.number parseInt := fun text => by
    rw [trim_append hblank]
    rfl
  cases child with
  | filler this =>
      obtain ⟨cbuf, hrun, hcbuf⟩ := run_filler parseInt parseTable (Or.inl hstate) hblank this
      rw [VariableChild.events, hrun]
      exact Lockstep.ok ⟨hstate, hvariable, hnew, hcbuf, hmaps⟩
  | values tag text =>
      have hstart : p.startElement tag.1 = .ok { p with parserState := .inValues } := by
        simp [startElement, hstate, isWord_eq tag.2]
      rw [VariableChild.events, run_leaf parseInt parseTable hstart
        (run_text parseInt parseTable (by simp) (by simp) text)]
      simp only [endElement, isWord_eq tag.2, VariableChild.step, hnumber, cVariable, hobject]
      cases text.number parseInt with
      | none => exact Lockstep.error hmaps
      | some numVals =>
          refine Lockstep.ok ⟨rfl, Objects.object_assign hobject _,
            Objects.unlisted_assign hnew _, hempty, ?_⟩
          exact maps_of_contents hmaps (Objects.contents_assign hnew _) rfl rfl
  | observed tag text =>
      -- the observation is a new object until its end tag puts it into the map
      have hstart : p.startElement tag.1 = .ok { p with
          fNumObs := p.fNumObs + 1
          parserState := .inObserved
          obs := (p.obs.create ⟨none, 0⟩).assign ⟨s.1.name, 0⟩ } := by
        simp [startElement, hstate, isWord_eq tag.2, cVariable, hobject]
      have hunlisted := Objects.unlisted_create p.obs ⟨none, 0⟩
      have hobs := Objects.object_assign (Objects.object_create p.obs ⟨none, 0⟩) ⟨s.1.name, 0⟩
      have hcontents : ((p.obs.create ⟨none, 0⟩).assign ⟨s.1.name, 0⟩).contents =
          p.obs.contents :=
        (Objects.contents_assign hunlisted _).trans (Objects.contents_create p.obs _)
      rw [VariableChild.events, run_leaf parseInt parseTable hstart
        (run_text parseInt parseTable (by simp) (by simp) text)]
      simp only [endElement, isWord_eq tag.2, VariableChild.step, hnumber, cObs, hobs]
      cases text.number parseInt with
      | none => exact Lockstep.error (maps_of_contents hmaps rfl hcontents rfl)
      | some value =>
          refine Lockstep.ok ⟨rfl, hvariable, hnew, hempty, ?_⟩
          rw [← hmaps]
          refine Maps.ext rfl ?_ rfl
          refine (Objects.contents_put (Objects.object_assign hobs _) _).trans ?_
          rw [Objects.contents_assign (Objects.unlisted_assign hunlisted _), hcontents]
          rfl

/-- What a child says about the table. -/
def ProbabilityChild.step (table : JTable T) : ProbabilityChild → JTable T
  | filler _ => table
  | forVbl _ text => { table with forVbl := some (trim text.string) }
  | given _ text => { table with given := table.given ++ [trim text.string] }
  | .table _ text => { table with table := some (parseTable (trim text.string)) }

theorem run_probabilityChild {p : XBIFParser T} {s : JTable T × Maps T} (child : ProbabilityChild)
    (h : InProbability p s) : ∃ q, p.run parseInt parseTable child.events = .ok q ∧
      InProbability q (child.step (fun t => parseTable (t.map lineToBlank)) s.1, s.2) := by
  obtain ⟨hstate, htable, hnew, hblank, hmaps⟩ := h
  have hobject : p.tables.object = some s.1 := htable
  have hempty : ∀ c ∈ ([] : JString), isBlank c = true := fun c hc => absurd hc List.not_mem_nil
  -- every child but a filler changes the object worked on
  have hassign : ∀ (parserState : ParserState) (cNumPar : ℕ) (t : JTable T),
      parserState = .inProbability → InProbability { p with
        parserState := parserState
        cNumPar := cNumPar
        cbuf := []
        tables := p.tables.assign t } (t, s.2) := fun parserState cNumPar t hparser =>
    ⟨hparser, Objects.object_assign hobject t, Objects.unlisted_assign hnew t, hempty,
      maps_of_contents hmaps rfl rfl (Objects.contents_assign hnew t)⟩
  cases child with
  | filler this =>
      obtain ⟨cbuf, hrun, hcbuf⟩ := run_filler parseInt parseTable (Or.inr hstate) hblank this
      exact ⟨_, hrun, hstate, htable, hnew, hcbuf, hmaps⟩
  | forVbl tag text =>
      have hstart : p.startElement tag.1 = .ok { p with parserState := .inFor } := by
        simp [startElement, hstate, isWord_eq tag.2]
      have hend := run_leaf parseInt parseTable hstart
        (run_text parseInt parseTable (by simp) (by simp) text)
      simp only [endElement, isWord_eq tag.2, cTable, hobject, trim_append hblank] at hend
      exact ⟨_, hend, hassign _ _ _ rfl⟩
  | given tag text =>
      have hstart : p.startElement tag.1 =
          .ok { p with parserState := .inGiven, cNumPar := p.cNumPar + 1 } := by
        simp [startElement, hstate, isWord_eq tag.2]
      have hend := run_leaf parseInt parseTable hstart
        (run_text parseInt parseTable (by simp) (by simp) text)
      simp only [endElement, isWord_eq tag.2, cTable, hobject, trim_append hblank] at hend
      exact ⟨_, hend, hassign _ _ _ rfl⟩
  | table tag text =>
      have hstart : p.startElement tag.1 = .ok { p with parserState := .inTable } := by
        simp [startElement, hstate, isWord_eq tag.2]
      have hend := run_leaf parseInt parseTable hstart
        (run_tableText parseInt parseTable rfl text)
      simp only [endElement, isWord_eq tag.2, cTable, hobject, trim_append hblank, trim_map]
        at hend
      exact ⟨_, hend, hassign _ _ _ rfl⟩

/-! ## Elements -/

/-- The name of the variable. -/
theorem run_name {p : XBIFParser T} {s : JVariable × Maps T} (tag : Tag .name) (text : Text)
    (h : InVariable p s) : ∃ q, p.run parseInt parseTable (leafEvents tag.1 text) = .ok q ∧
      InVariable q ({ s.1 with name := some (trim text.string) }, s.2) := by
  obtain ⟨hstate, hvariable, hnew, hblank, hmaps⟩ := h
  have hobject : p.vbls.object = some s.1 := hvariable
  have hstart : p.startElement tag.1 = .ok { p with parserState := .inName } := by
    simp [startElement, hstate, isWord_eq tag.2]
  have hend := run_leaf parseInt parseTable hstart
    (run_text parseInt parseTable (by simp) (by simp) text)
  simp only [endElement, isWord_eq tag.2, cVariable, hobject, trim_append hblank] at hend
  refine ⟨_, hend, rfl, Objects.object_assign hobject _, Objects.unlisted_assign hnew _,
    fun c hc => absurd hc List.not_mem_nil, ?_⟩
  exact maps_of_contents hmaps (Objects.contents_assign hnew _) rfl rfl

theorem lockstep_variableChildren {p : XBIFParser T} {s : JVariable × Maps T}
    (children : List VariableChild) (h : InVariable p s) : Lockstep Thrown InVariable
      (p.run parseInt parseTable (children.flatMap VariableChild.events))
      (children.foldlM (VariableChild.step parseInt) s) := by
  rw [run_flatMap]
  exact Lockstep.foldlM (fun _ _ child => lockstep_variableChild parseInt parseTable child)
    children h

/-- What stands before the name. -/
theorem run_before {p : XBIFParser T} {s : JVariable × Maps T} (before : List Filler)
    (h : InVariable p s) : ∃ q, p.run parseInt parseTable (before.flatMap Filler.events) = .ok q ∧
      InVariable q s := by
  have hstep :
      (before.map VariableChild.filler).foldlM (VariableChild.step parseInt) s = .ok s := by
    induction before with
    | nil => rfl
    | cons filler before ih => exact ih
  have hrun := lockstep_variableChildren parseInt parseTable (before.map VariableChild.filler) h
  rw [hstep, List.flatMap_map] at hrun
  exact hrun.exists_ok

/-- What a variable element says, one child after the other. -/
def VariableElement.step (this : VariableElement) (maps : Maps T) : Except (Maps T) (Maps T) := do
  let s ← this.children.foldlM (VariableChild.step parseInt)
    (⟨some (trim this.name.string), 0⟩, maps)
  return { s.2 with vbls := s.2.vbls.put s.1.name s.1 }

theorem lockstep_variableElement {p : XBIFParser T} {maps : Maps T} (this : VariableElement)
    (h : Outside p maps) : Lockstep Thrown Outside
      (p.run parseInt parseTable this.events) (this.step parseInt maps) := by
  have hstart : p.handle parseInt parseTable (.startElement this.tag.1) = .ok { p with
      fNumVbls := p.fNumVbls + 1
      parserState := .inVariable
      vbls := p.vbls.create ⟨none, 0⟩ } := by
    simp [handle, startElement, h.parserState, isWord_eq this.tag.2]
  have hopen : InVariable { p with
      fNumVbls := p.fNumVbls + 1
      parserState := .inVariable
      vbls := p.vbls.create ⟨none, 0⟩ } (⟨none, 0⟩, maps) :=
    ⟨rfl, Objects.object_create .., Objects.unlisted_create _ _, h.blank,
      maps_of_contents h.maps (Objects.contents_create ..) rfl rfl⟩
  obtain ⟨q, hq, hbefore⟩ := run_before parseInt parseTable this.before hopen
  obtain ⟨r, hr, hname⟩ := run_name parseInt parseTable this.nameTag this.name hbefore
  have hevents : p.run parseInt parseTable this.events =
      r.run parseInt parseTable (this.children.flatMap VariableChild.events) >>= fun r =>
        r.run parseInt parseTable [Event.endElement this.tag.1] := by
    rw [VariableElement.events, run_cons, hstart]
    show XBIFParser.run parseInt parseTable _ _ = _
    rw [run_append, run_append, run_append, hq]
    show (q.run parseInt parseTable (leafEvents this.nameTag.1 this.name) >>= _) >>= _ = _
    rw [hr]
    rfl
  rw [hevents]
  refine (lockstep_variableChildren parseInt parseTable this.children hname).bind
    fun x s hclose => ?_
  have hend : x.run parseInt parseTable [Event.endElement this.tag.1] = .ok { x with
      parserState := .outside
      vbls := x.vbls.put s.1.name } := by
    have hobject : x.vbls.object = some s.1 := hclose.cVariable
    rw [run_cons]
    simp only [handle, endElement, isWord_eq this.tag.2, hclose.parserState, cVariable, hobject]
    rfl
  rw [hend]
  refine Lockstep.ok ⟨rfl, hclose.blank, ?_⟩
  rw [← hclose.maps]
  exact Maps.ext (Objects.contents_put hclose.cVariable _) rfl rfl

/-- What a probability element says, one child after the other. -/
def ProbabilityElement.step (this : ProbabilityElement) (maps : Maps T) : Maps T :=
  let table := this.children.foldl (ProbabilityChild.step parseTable) ⟨none, [], none⟩
  { maps with tables := maps.tables.put table.forVbl table }

theorem run_probabilityChildren {p : XBIFParser T} {s : JTable T × Maps T}
    (children : List ProbabilityChild) (h : InProbability p s) : ∃ q,
      p.run parseInt parseTable (children.flatMap ProbabilityChild.events) = .ok q ∧
        InProbability q
          (children.foldl (ProbabilityChild.step fun t => parseTable (t.map lineToBlank)) s.1,
            s.2) := by
  induction children generalizing p s with
  | nil => exact ⟨p, rfl, h⟩
  | cons child children ih =>
      obtain ⟨q, hq, hchild⟩ := run_probabilityChild parseInt parseTable child h
      obtain ⟨r, hr, hchildren⟩ := ih hchild
      refine ⟨r, ?_, hchildren⟩
      rw [List.flatMap_cons, run_append, hq]
      exact hr

/-- The end tag puts the table into the map. -/
theorem run_endProbability {p : XBIFParser T} {s : JTable T × Maps T} (tag : Tag .probability)
    (h : InProbability p s) : ∃ q,
      p.run parseInt parseTable [Event.endElement tag.1] = .ok q ∧
        Outside q { s.2 with tables := s.2.tables.put s.1.forVbl s.1 } := by
  have hobject : p.tables.object = some s.1 := h.cTable
  rw [run_cons]
  simp only [handle, endElement, isWord_eq tag.2, h.parserState, cTable, hobject]
  refine ⟨_, rfl, rfl, h.blank, ?_⟩
  rw [← h.maps]
  exact Maps.ext rfl rfl (Objects.contents_put h.cTable _)

theorem run_probabilityElement {p : XBIFParser T} {maps : Maps T} (this : ProbabilityElement)
    (h : Outside p maps) : ∃ q, p.run parseInt parseTable this.events = .ok q ∧
      Outside q (this.step (fun t => parseTable (t.map lineToBlank)) maps) := by
  have hstart : p.handle parseInt parseTable (.startElement this.tag.1) = .ok { p with
      parserState := .inProbability
      tables := p.tables.create ⟨none, [], none⟩
      cNumPar := 0 } := by
    simp [handle, startElement, h.parserState, isWord_eq this.tag.2]
  have hopen : InProbability { p with
      parserState := .inProbability
      tables := p.tables.create ⟨none, [], none⟩
      cNumPar := 0 } (⟨none, [], none⟩, maps) :=
    ⟨rfl, Objects.object_create .., Objects.unlisted_create _ _, h.blank,
      maps_of_contents h.maps rfl rfl (Objects.contents_create ..)⟩
  obtain ⟨q, hq, hclose⟩ := run_probabilityChildren parseInt parseTable this.children hopen
  rw [ProbabilityElement.events, run_cons, hstart]
  show ∃ r, XBIFParser.run parseInt parseTable _ _ = _ ∧ _
  rw [run_append, hq]
  exact run_endProbability parseInt parseTable this.tag hclose

/-! ## Documents -/

theorem handle_outside {p : XBIFParser T} {maps : Maps T} {event : Event}
    (hevent : event.IsOutside) (h : Outside p maps) :
    p.handle parseInt parseTable event = .ok p := by
  cases event with
  | startElement localName => simp [handle, startElement, h.parserState, hevent.1, hevent.2]
  | endElement localName => simp [handle, endElement, h.parserState]
  | characters ch => simp [handle, characters, h.parserState]
  | ignorableWhitespace ch => rfl
  | processingInstruction target data => rfl

/-- What a part of a document says, one child after the other. -/
def Item.step (maps : Maps T) : Item → Except (Maps T) (Maps T)
  | .outside _ _ => .ok maps
  | .variableElement this => this.step parseInt maps
  | .probabilityElement this => .ok (this.step parseTable maps)

theorem lockstep_item {p : XBIFParser T} {maps : Maps T} (item : Item) (h : Outside p maps) :
    Lockstep Thrown Outside (p.run parseInt parseTable item.events)
      (item.step parseInt (fun t => parseTable (t.map lineToBlank)) maps) := by
  cases item with
  | outside event hevent =>
      rw [Item.events, run_cons, handle_outside parseInt parseTable hevent h]
      exact Lockstep.ok h
  | variableElement this => exact lockstep_variableElement parseInt parseTable this h
  | probabilityElement this =>
      obtain ⟨q, hq, hclose⟩ := run_probabilityElement parseInt parseTable this h
      rw [Item.events, hq]
      exact Lockstep.ok hclose

/-- From any state outside of the elements that matter, the handler does what the document says. -/
theorem lockstep_document {p : XBIFParser T} {maps : Maps T} (document : Document)
    (h : Outside p maps) : Lockstep Thrown Outside (p.run parseInt parseTable document.events)
      (document.foldlM (Item.step parseInt fun t => parseTable (t.map lineToBlank)) maps) := by
  rw [Document.events, run_flatMap]
  exact Lockstep.foldlM (fun _ _ item => lockstep_item parseInt parseTable item) document h

/-! ## One child after the other, and the element as a whole -/

theorem toOption_foldlM {ε α β : Type} {f : α → β → Except ε α} {g : α → β → Option α}
    (h : ∀ a b, (f a b).toOption = g a b) (l : List β) (a : α) :
    (l.foldlM f a).toOption = l.foldlM g a := by
  induction l generalizing a with
  | nil => rfl
  | cons b l ih =>
      rw [List.foldlM_cons, List.foldlM_cons, ← h a b]
      cases f a b with
      | error e => rfl
      | ok a' => exact ih a'

theorem toOption_variableChildren (children : List VariableChild) (v : JVariable)
    (maps : Maps T) :
    (children.foldlM (VariableChild.step parseInt) (v, maps)).toOption = do
      let numVals ← (children.filterMap VariableChild.valuesText).foldlM
        (fun _ text => text.number parseInt) v.numVals
      let obs ← (children.filterMap VariableChild.observedText).foldlM
        (fun obs text => (text.number parseInt).map fun value => obs.put v.name ⟨v.name, value⟩)
        maps.obs
      return ({ v with numVals := numVals }, { maps with obs := obs }) := by
  induction children generalizing v maps with
  | nil => rfl
  | cons child children ih =>
      cases child with
      | filler this => exact ih v maps
      | values tag text =>
          simp only [List.foldlM_cons, VariableChild.step, List.filterMap_cons,
            VariableChild.valuesText, VariableChild.observedText]
          cases text.number parseInt with
          | none => rfl
          | some numVals => exact ih _ maps
      | observed tag text =>
          simp only [List.foldlM_cons, VariableChild.step, List.filterMap_cons,
            VariableChild.valuesText, VariableChild.observedText]
          cases text.number parseInt with
          | none => simp [bind, Except.bind, Except.toOption]
          | some value => exact ih v _

theorem VariableElement.toOption_step (this : VariableElement) (maps : Maps T) :
    (this.step parseInt maps).toOption = this.read parseInt maps := by
  have hchildren := toOption_variableChildren parseInt this.children
    ⟨some (trim this.name.string), 0⟩ maps
  rw [this.values_eq, this.observed_eq] at hchildren
  have hstep : (this.step parseInt maps).toOption =
      (this.children.foldlM (VariableChild.step parseInt)
        (⟨some (trim this.name.string), 0⟩, maps)).toOption >>= fun s =>
          some { s.2 with vbls := s.2.vbls.put s.1.name s.1 } := by
    rw [VariableElement.step]
    cases this.children.foldlM (VariableChild.step parseInt)
      (⟨some (trim this.name.string), 0⟩, maps) <;> rfl
  rw [hstep, hchildren, VariableElement.read]
  simp only [List.foldlM_cons, List.foldlM_nil, bind_pure]
  cases this.observed with
  | none => cases this.values.number parseInt <;> rfl
  | some text =>
      simp only [Option.toList_some, List.foldlM_cons, List.foldlM_nil, bind_pure, Option.elim_some]
      cases this.values.number parseInt with
      | none => rfl
      | some numVals => cases text.number parseInt <;> rfl

theorem foldl_probabilityChildren (children : List ProbabilityChild) (table : JTable T) :
    children.foldl (ProbabilityChild.step parseTable) table =
      { forVbl := (children.filterMap ProbabilityChild.forText).foldl
          (fun _ text => some (trim text.string)) table.forVbl
        given := table.given ++ (children.filterMap ProbabilityChild.givenText).map
          fun text => trim text.string
        table := (children.filterMap ProbabilityChild.tableText).foldl
          (fun _ text => some (parseTable (trim text.string))) table.table } := by
  induction children generalizing table with
  | nil => simp
  | cons child children ih =>
      rw [List.foldl_cons, ih]
      cases child <;> simp [List.filterMap_cons, ProbabilityChild.step, ProbabilityChild.forText,
        ProbabilityChild.givenText, ProbabilityChild.tableText]

theorem ProbabilityElement.step_eq (this : ProbabilityElement) (maps : Maps T) :
    this.step parseTable maps = this.read parseTable maps := by
  rw [ProbabilityElement.step, foldl_probabilityChildren, this.forVbl_eq, this.given_eq,
    this.table_eq]
  rfl

theorem Item.toOption_step (maps : Maps T) (item : Item) :
    (item.step parseInt parseTable maps).toOption = Item.read parseInt parseTable maps item := by
  cases item with
  | outside event h => rfl
  | variableElement this => exact this.toOption_step parseInt maps
  | probabilityElement this =>
      rw [Item.step, ProbabilityElement.step_eq]
      rfl

/-- A new handler ends outside of all elements, with the maps that the document says. -/
theorem toOption_parse (document : Document) :
    ((XBIFParser.new T).parse parseInt parseTable document.events).toOption.map
        (fun p => (p.parserState, p.maps)) =
      (document.read parseInt fun t => parseTable (t.map lineToBlank)).map
        fun maps => (.outside, maps) := by
  have hstart : Outside (XBIFParser.new T).startDocument (Maps.empty T) :=
    ⟨rfl, fun c hc => absurd hc List.not_mem_nil, rfl⟩
  have hstep := lockstep_document parseInt parseTable document hstart
  rw [Document.read, ← toOption_foldlM (fun maps item => Item.toOption_step _ _ maps item)]
  refine hstep.toOption_map fun p maps h => ?_
  rw [h.parserState, h.maps]

end Handling

end JunctionBox.Xbif
