import JunctionBox.Xbif.Reading

/-!
# One handler for many documents

The loader makes one handler and gives it to the platform's parser for every
repetition and every file.  A fatal error ends a parse wherever it stands, and
`startDocument` sets back everything but the state and the objects the handler is
working on.

`parse_independent_iff` says after which parses this does no harm.  A handler that
is outside of all elements reads every `Document` as a new one does
(`sameMaps_of_outside`); any other state misreads the document `stray`.  Among all
that is well-formed XML there are documents that are no `Document`: elements nested
the wrong way round put the object of an earlier document into the maps
(`crossed`), and only a handler that has no such object reads them all like a new
one (`sameMaps_of_untouched`).
-/

namespace JunctionBox.Xbif

open XBIFParser

/-! ## Earlier parses -/

/-- The calls for a piece of XML in which every element is closed. -/
inductive Balanced : List Event → Prop where
  | nil : Balanced []
  | element (localName : JString) {inner rest : List Event} (hinner : Balanced inner)
      (hrest : Balanced rest) :
      Balanced (.startElement localName :: (inner ++ .endElement localName :: rest))
  | characters (ch : JString) {rest : List Event} (hrest : Balanced rest) :
      Balanced (.characters ch :: rest)
  | ignorableWhitespace (ch : JString) {rest : List Event} (hrest : Balanced rest) :
      Balanced (.ignorableWhitespace ch :: rest)
  | processingInstruction (target data : JString) {rest : List Event} (hrest : Balanced rest) :
      Balanced (.processingInstruction target data :: rest)

/-- The calls for a well-formed document: one element, and all that it contains. -/
def WellFormed (events : List Event) : Prop :=
  ∃ root inner, Balanced inner ∧
    events = .startElement root :: (inner ++ [.endElement root])

section Handling

variable {T : Type} (parseInt : JString → Option ℤ) (parseTable : JString → T)

/-- The handler after parses of documents, or of what came of them before a fatal error. -/
def afterParses (history : List (List Event)) : XBIFParser T :=
  history.foldl (fun (p : XBIFParser T) events => left (p.parse parseInt parseTable events))
    (XBIFParser.new T)

/-- The handler makes the same maps of the document as a new one. -/
def SameMaps (p : XBIFParser T) (events : List Event) : Prop :=
  (left (p.parse parseInt parseTable events)).maps =
    (left ((XBIFParser.new T).parse parseInt parseTable events)).maps

/-! ## Documents of variables and tables -/

theorem left_maps_of_lockstep {a : Except (XBIFParser T) (XBIFParser T)}
    {b : Except (Maps T) (Maps T)} (h : Lockstep Thrown Outside a b) :
    (left a).maps = left b := by
  cases h with
  | error h => exact h
  | ok h => exact h.maps

theorem outside_startDocument {p : XBIFParser T} (h : p.parserState = .outside) :
    Outside p.startDocument (Maps.empty T) :=
  ⟨h, fun _ hc => absurd hc List.not_mem_nil, rfl⟩

/-- Outside of all elements nothing is left of what was before. -/
theorem sameMaps_of_outside {p : XBIFParser T} (h : p.parserState = .outside)
    (document : Document) : SameMaps parseInt parseTable p document.events := by
  have hp := lockstep_document parseInt parseTable document (outside_startDocument h)
  have hnew := lockstep_document parseInt parseTable document
    (outside_startDocument (p := XBIFParser.new T) rfl)
  exact (left_maps_of_lockstep hp).trans (left_maps_of_lockstep hnew).symm

/-- A document that is read leaves the handler outside. -/
theorem parserState_afterParses {history : List Document}
    (h : ∀ document ∈ history,
      (document.read parseInt fun t => parseTable (t.map lineToBlank)) ≠ none) :
    (afterParses parseInt parseTable (history.map Document.events)).parserState = .outside := by
  have hloop : ∀ {p : XBIFParser T}, p.parserState = .outside →
      (history.foldl (fun (p : XBIFParser T) document =>
        left (p.parse parseInt parseTable document.events)) p).parserState = .outside := by
    induction history with
    | nil => exact fun hp => hp
    | cons document history ih =>
        intro p hp
        refine ih (fun d hd => h d (List.mem_cons_of_mem _ hd)) ?_
        have hstep := lockstep_document parseInt parseTable document (outside_startDocument hp)
        have hread := h document (List.mem_cons_self ..)
        rw [Document.read, ← toOption_foldlM (fun maps item => Item.toOption_step _ _ maps item)]
          at hread
        show (left (XBIFParser.run parseInt parseTable _ _)).parserState = _
        cases hsaid : document.foldlM
            (Item.step parseInt fun t => parseTable (t.map lineToBlank)) (Maps.empty T) with
        | error maps =>
            rw [hsaid] at hread
            exact absurd rfl hread
        | ok maps =>
            rw [hsaid] at hstep
            obtain ⟨q, hq, hout⟩ := hstep.exists_ok
            rw [hq]
            exact hout.parserState
  rw [afterParses, List.foldl_map]
  exact hloop rfl

end Handling

/-! ## A document that a state left over misreads -/

/-- The probability element of `stray`: a table for `x`. -/
def strayElement : ProbabilityElement where
  tag := .capitals .probability
  children :=
    [.forVbl (.capitals .forVbl) [['x']], .table (.capitals .table) [['1']]]
  forVbl := [['x']]
  given := []
  table := [['1']]
  forVbl_eq := rfl
  given_eq := rfl
  table_eq := rfl

/-- Some text outside of the elements that matter, and a table. -/
def stray : Document :=
  [.outside (.startElement "BIF".toList) ⟨by decide, by decide⟩,
    .outside (.characters ['y']) trivial,
    .probabilityElement strayElement, .outside (.endElement "BIF".toList) trivial]

theorem wellFormed_stray : WellFormed stray.events := by
  have hleaf : ∀ (localName : JString) (ch : JString) {rest : List Event}, Balanced rest →
      Balanced (leafEvents localName [ch] ++ rest) := fun localName ch rest hrest =>
    Balanced.element localName (Balanced.characters ch Balanced.nil) hrest
  refine ⟨"BIF".toList, _, Balanced.characters ['y'] (Balanced.element "PROBABILITY".toList
    (hleaf "FOR".toList ['x'] (hleaf "TABLE".toList ['1'] Balanced.nil)) Balanced.nil), rfl⟩

section Stale

variable {T : Type} (parseInt : JString → Option ℤ) (parseTable : JString → T)

theorem stray_new :
    ((left ((XBIFParser.new T).parse parseInt parseTable stray.events)).maps.tables
      (some ['x'])).isSome = true := by
  rfl

/-- The end tags put the table under what the buffer holds. -/
theorem tables_of_buffer {p : XBIFParser T} (h : p.parserState ≠ .outside)
    (hnew : p.tables.Unlisted) {key : Option JString} (hkey : key ≠ some (trim p.cbuf)) :
    (left (p.run parseInt parseTable (.endElement (Tag.capitals .forVbl).1 ::
      ([ProbabilityChild.table (.capitals .table) [['1']]].flatMap ProbabilityChild.events ++
        ([.endElement (Tag.capitals .probability).1] ++
          [.endElement "BIF".toList]))))).maps.tables key = p.maps.tables key := by
  rw [run_cons]
  cases hobject : p.tables.object with
  | none =>
      have hend : p.handle parseInt parseTable (.endElement (Tag.capitals .forVbl).1) =
          .error p := by
        simp [handle, endElement, h, isWord_eq (Tag.capitals .forVbl).2, cTable, hobject]
      rw [hend]
      rfl
  | some t =>
      have hend : p.handle parseInt parseTable (.endElement (Tag.capitals .forVbl).1) =
          .ok { p with
            tables := p.tables.assign { t with forVbl := some (trim p.cbuf) }
            cbuf := []
            parserState := .inProbability } := by
        simp [handle, endElement, h, isWord_eq (Tag.capitals .forVbl).2, cTable, hobject]
      have hopen : InProbability { p with
          tables := p.tables.assign { t with forVbl := some (trim p.cbuf) }
          cbuf := []
          parserState := .inProbability } ({ t with forVbl := some (trim p.cbuf) }, p.maps) :=
        ⟨rfl, Objects.object_assign hobject _, Objects.unlisted_assign hnew _,
          fun c hc => absurd hc List.not_mem_nil,
          maps_of_contents rfl rfl rfl (Objects.contents_assign hnew _)⟩
      obtain ⟨q, hq, hinside⟩ := run_probabilityChildren parseInt parseTable
        [.table (.capitals .table) [['1']]] hopen
      obtain ⟨r, hr, hclose⟩ := run_endProbability parseInt parseTable
        (.capitals .probability) hinside
      rw [hend]
      show (left (XBIFParser.run _ _ _ _)).maps.tables key = _
      rw [run_append, hq]
      show (left (XBIFParser.run _ _ _ _)).maps.tables key = _
      rw [run_append, hr]
      show (left (r.run parseInt parseTable [.endElement "BIF".toList])).maps.tables key = _
      have hroot : r.handle parseInt parseTable (.endElement "BIF".toList) = .ok r :=
        handle_outside parseInt parseTable trivial hclose
      rw [run_cons, hroot]
      show r.maps.tables key = _
      rw [hclose.maps]
      exact Function.update_of_ne hkey _ _

/-- The text ends up in the name of the variable. -/
theorem stray_stale {p : XBIFParser T} (h : p.parserState ≠ .outside) :
    ((left (p.parse parseInt parseTable stray.events)).maps.tables (some ['x'])).isSome =
      false := by
  have hname : ∃ q, p.startDocument.run parseInt parseTable [.startElement "BIF".toList,
      .characters ['y'], .startElement (Tag.capitals .probability).1,
      .startElement (Tag.capitals .forVbl).1, .characters ['x']] = .ok q ∧
        q.parserState ≠ .outside ∧ q.cbuf = ['y', 'x'] ∧ q.tables = p.tables.clear := by
    obtain ⟨fNumVbls, fNumObs, mNumVals, mNumPar, cNumPar, parserState, cbuf, vbls, obs,
      tables⟩ := p
    cases parserState with
    | outside => exact absurd rfl h
    | _ => exact ⟨_, rfl, ParserState.noConfusion, rfl, rfl⟩
  obtain ⟨q, hq, hstate, hcbuf, htables⟩ := hname
  have hevents : stray.events = [.startElement "BIF".toList,
      .characters ['y'], .startElement (Tag.capitals .probability).1,
      .startElement (Tag.capitals .forVbl).1, .characters ['x']] ++
    (.endElement (Tag.capitals .forVbl).1 ::
      ([ProbabilityChild.table (.capitals .table) [['1']]].flatMap ProbabilityChild.events ++
        ([.endElement (Tag.capitals .probability).1] ++ [.endElement "BIF".toList]))) := rfl
  rw [parse, hevents, run_append, hq]
  refine (congrArg Option.isSome (tables_of_buffer parseInt parseTable hstate ?_ ?_)).trans ?_
  · rw [htables]
    exact Objects.unlisted_clear _
  · rw [hcbuf]
    decide
  · rw [maps, htables]
    rfl

/-- A document with one element in the other. -/
def crossed (outer inner : Word) : List Event :=
  [.startElement "BIF".toList, .startElement (Tag.capitals outer).1,
    .startElement (Tag.capitals inner).1, .endElement (Tag.capitals inner).1,
    .endElement (Tag.capitals outer).1, .endElement "BIF".toList]

theorem wellFormed_crossed (outer inner : Word) : WellFormed (crossed outer inner) :=
  ⟨"BIF".toList, _, Balanced.element _ (Balanced.element _ Balanced.nil Balanced.nil)
    Balanced.nil, rfl⟩

/-- What the end tags do after that of the inner element. -/
theorem left_run_crossed {p q r : XBIFParser T} {outer inner : Word}
    (hopen : p.startDocument.run parseInt parseTable [.startElement "BIF".toList,
      .startElement (Tag.capitals outer).1, .startElement (Tag.capitals inner).1] = .ok q)
    (hend : q.endElement parseInt parseTable (Tag.capitals inner).1 = .ok r)
    (hout : r.parserState = .outside) :
    left (p.parse parseInt parseTable (crossed outer inner)) = r := by
  have hevents : crossed outer inner = [.startElement "BIF".toList,
      .startElement (Tag.capitals outer).1, .startElement (Tag.capitals inner).1] ++
    (.endElement (Tag.capitals inner).1 ::
      [.endElement (Tag.capitals outer).1, .endElement "BIF".toList]) := rfl
  have hclose : ∀ localName, r.handle parseInt parseTable (.endElement localName) = .ok r :=
    fun localName => by simp [handle, endElement, hout]
  have hinner : q.handle parseInt parseTable (.endElement (Tag.capitals inner).1) = .ok r := hend
  rw [parse, hevents, run_append, hopen]
  show left (XBIFParser.run _ _ _ _) = r
  rw [run_cons, hinner]
  show left (XBIFParser.run _ _ _ _) = r
  rw [run_cons, hclose]
  show left (XBIFParser.run _ _ _ _) = r
  rw [run_cons, hclose]
  rfl

/-- The end tag of the variable puts an old one into the map. -/
theorem crossed_variable {p : XBIFParser T} (h : p.parserState = .outside) {v : JVariable}
    (hv : p.cVariable = some v) :
    ¬SameMaps parseInt parseTable p (crossed .probability .vbl) := by
  intro hsame
  have hold : (left (p.parse parseInt parseTable (crossed .probability .vbl))).maps.vbls v.name =
      some v := by
    have hobject : p.vbls.clear.object = some v := hv
    have hopen : p.startDocument.run parseInt parseTable [.startElement "BIF".toList,
        .startElement (Tag.capitals .probability).1, .startElement (Tag.capitals .vbl).1] =
          .ok { p.startDocument with
            parserState := .inProbability
            tables := p.tables.clear.create ⟨none, [], none⟩
            cNumPar := 0 } := by
      obtain ⟨fNumVbls, fNumObs, mNumVals, mNumPar, cNumPar, parserState, cbuf, vbls, obs,
        tables⟩ := p
      subst h
      rfl
    rw [left_run_crossed parseInt parseTable hopen (r := { p.startDocument with
      parserState := .outside
      tables := p.tables.clear.create ⟨none, [], none⟩
      cNumPar := 0
      vbls := p.vbls.clear.put v.name }) (by
        simp [endElement, isWord_eq (Tag.capitals .vbl).2, startDocument, cVariable, hobject]) rfl]
    exact (congrFun (Objects.contents_put hobject v.name) v.name).trans (Function.update_self ..)
  have hnew : (left ((XBIFParser.new T).parse parseInt parseTable
      (crossed .probability .vbl))).maps.vbls v.name = none := rfl
  rw [SameMaps] at hsame
  rw [hsame, hnew] at hold
  exact Option.some_ne_none v hold.symm

theorem crossed_table {p : XBIFParser T} (h : p.parserState = .outside) {t : JTable T}
    (ht : p.cTable = some t) :
    ¬SameMaps parseInt parseTable p (crossed .vbl .probability) := by
  intro hsame
  have hold : (left (p.parse parseInt parseTable (crossed .vbl .probability))).maps.tables
      t.forVbl = some t := by
    have hobject : p.tables.clear.object = some t := ht
    have hopen : p.startDocument.run parseInt parseTable [.startElement "BIF".toList,
        .startElement (Tag.capitals .vbl).1, .startElement (Tag.capitals .probability).1] =
          .ok { p.startDocument with
            fNumVbls := 1
            parserState := .inVariable
            vbls := p.vbls.clear.create ⟨none, 0⟩ } := by
      obtain ⟨fNumVbls, fNumObs, mNumVals, mNumPar, cNumPar, parserState, cbuf, vbls, obs,
        tables⟩ := p
      subst h
      rfl
    rw [left_run_crossed parseInt parseTable hopen (r := { p.startDocument with
      fNumVbls := 1
      parserState := .outside
      vbls := p.vbls.clear.create ⟨none, 0⟩
      mNumPar := p.cNumPar
      tables := p.tables.clear.put t.forVbl }) (by
        simp [endElement, isWord_eq (Tag.capitals .probability).2, startDocument, cTable, hobject])
        rfl]
    exact (congrFun (Objects.contents_put hobject t.forVbl) t.forVbl).trans
      (Function.update_self ..)
  have hnew : (left ((XBIFParser.new T).parse parseInt parseTable
      (crossed .vbl .probability))).maps.tables t.forVbl = none := rfl
  rw [SameMaps] at hsame
  rw [hsame, hnew] at hold
  exact Option.some_ne_none t hold.symm

/-! ## A handler that has not met any element -/

/-- As long as no variable and no table has begun, the handler is outside. -/
def Untouched (p : XBIFParser T) : Prop :=
  p.cVariable = none → p.cTable = none → p.parserState = .outside ∧ p.cObs = none

theorem objects_startElement (p : XBIFParser T) (localName : JString) :
    ((left (p.startElement localName)).cVariable = none → p.cVariable = none) ∧
      ((left (p.startElement localName)).cTable = none → p.cTable = none) := by
  unfold startElement
  grind [left, cVariable, cTable, Objects.object_create]

/-- An object is never given up. -/
theorem objects_endElement (p : XBIFParser T) (localName : JString) :
    ((left (p.endElement parseInt parseTable localName)).cVariable = none → p.cVariable = none) ∧
      ((left (p.endElement parseInt parseTable localName)).cTable = none → p.cTable = none) := by
  unfold endElement
  grind [left, cVariable, cTable, Objects.object_assign_eq_none_iff, Objects.object_put]

theorem untouched_handle {p : XBIFParser T} (h : Untouched p) (event : Event) :
    Untouched (left (p.handle parseInt parseTable event)) := by
  cases event with
  | startElement localName =>
      intro hvariable htable
      obtain ⟨hstate, hobs⟩ := h ((objects_startElement p localName).1 hvariable)
        ((objects_startElement p localName).2 htable)
      revert hvariable htable
      simp only [handle, startElement, hstate]
      split_ifs
      · intro hvariable
        exact absurd ((Objects.object_create ..).symm.trans hvariable) (Option.some_ne_none _)
      · intro _ htable
        exact absurd ((Objects.object_create ..).symm.trans htable) (Option.some_ne_none _)
      · exact fun _ _ => ⟨hstate, hobs⟩
  | endElement localName =>
      intro hvariable htable
      obtain ⟨hstate, hobs⟩ := h ((objects_endElement parseInt parseTable p localName).1 hvariable)
        ((objects_endElement parseInt parseTable p localName).2 htable)
      have hend : p.endElement parseInt parseTable localName = .ok p := by
        simp only [endElement, hstate, ne_eq, not_true_eq_false, if_false]
      rw [handle, hend]
      exact ⟨hstate, hobs⟩
  | characters ch =>
      intro hvariable htable
      simp only [handle, left, characters] at hvariable htable ⊢
      split_ifs at hvariable htable ⊢ <;> exact h hvariable htable
  | ignorableWhitespace ch => exact h
  | processingInstruction target data => exact h

theorem untouched_run {p : XBIFParser T} (h : Untouched p) (events : List Event) :
    Untouched (left (p.run parseInt parseTable events)) := by
  induction events generalizing p with
  | nil => exact h
  | cons event events ih =>
      have hstep := untouched_handle parseInt parseTable h event
      rw [run_cons]
      cases hrun : p.handle parseInt parseTable event with
      | error q =>
          rw [hrun] at hstep
          exact hstep
      | ok q =>
          rw [hrun] at hstep
          exact ih hstep

theorem untouched_afterParses (history : List (List Event)) :
    Untouched (afterParses parseInt parseTable history) := by
  have hloop : ∀ {p : XBIFParser T}, Untouched p → Untouched
      (history.foldl (fun (p : XBIFParser T) events => left (p.parse parseInt parseTable events)) p)
      := by
    induction history with
    | nil => exact fun hp => hp
    | cons events history ih =>
        intro p hp
        have hstart : Untouched p.startDocument := hp
        have hparse : Untouched (left (p.parse parseInt parseTable events)) :=
          untouched_run parseInt parseTable hstart events
        exact ih hparse
  exact hloop fun _ _ => ⟨rfl, rfl⟩

/-! ## Two handlers that count differently -/

/-- The two handlers differ in what they count at most. -/
structure Alike (p q : XBIFParser T) : Prop where
  parserState : p.parserState = q.parserState
  cbuf : p.cbuf = q.cbuf
  vbls : p.vbls = q.vbls
  obs : p.obs = q.obs
  tables : p.tables = q.tables

theorem Alike.maps {p q : XBIFParser T} (h : Alike p q) : p.maps = q.maps := by
  rw [XBIFParser.maps, XBIFParser.maps, h.vbls, h.obs, h.tables]

theorem lockstep_startElement {p q : XBIFParser T} (h : Alike p q) (localName : JString) :
    Lockstep Alike Alike (p.startElement localName) (q.startElement localName) := by
  obtain ⟨fNumVbls, fNumObs, mNumVals, mNumPar, cNumPar, parserState, cbuf, vbls, obs, tables⟩ := p
  obtain ⟨fNumVbls', fNumObs', mNumVals', mNumPar', cNumPar', parserState', cbuf', vbls', obs',
    tables'⟩ := q
  obtain ⟨hstate, hcbuf, hvbls, hobs, htables⟩ := h
  simp only at hstate hcbuf hvbls hobs htables
  subst hstate hcbuf hvbls hobs htables
  unfold startElement
  cases parserState with
  | outside =>
      simp only
      split_ifs <;> exact Lockstep.ok ⟨rfl, rfl, rfl, rfl, rfl⟩
  | inVariable =>
      simp only [cVariable]
      split_ifs
      · exact Lockstep.ok ⟨rfl, rfl, rfl, rfl, rfl⟩
      · exact Lockstep.ok ⟨rfl, rfl, rfl, rfl, rfl⟩
      · cases vbls.object with
        | none => exact Lockstep.error ⟨rfl, rfl, rfl, rfl, rfl⟩
        | some v => exact Lockstep.ok ⟨rfl, rfl, rfl, rfl, rfl⟩
      · exact Lockstep.ok ⟨rfl, rfl, rfl, rfl, rfl⟩
  | inProbability =>
      simp only
      refine Lockstep.ok ?_
      split_ifs <;> exact ⟨rfl, rfl, rfl, rfl, rfl⟩
  | _ => exact Lockstep.ok ⟨rfl, rfl, rfl, rfl, rfl⟩

theorem lockstep_endElement {p q : XBIFParser T} (h : Alike p q) (localName : JString) :
    Lockstep Alike Alike (p.endElement parseInt parseTable localName)
      (q.endElement parseInt parseTable localName) := by
  obtain ⟨fNumVbls, fNumObs, mNumVals, mNumPar, cNumPar, parserState, cbuf, vbls, obs, tables⟩ := p
  obtain ⟨fNumVbls', fNumObs', mNumVals', mNumPar', cNumPar', parserState', cbuf', vbls', obs',
    tables'⟩ := q
  obtain ⟨hstate, hcbuf, hvbls, hobs, htables⟩ := h
  simp only at hstate hcbuf hvbls hobs htables
  subst hstate hcbuf hvbls hobs htables
  unfold endElement
  by_cases hout : parserState = .outside
  · simp only [hout, ne_eq, not_true_eq_false, if_false]
    exact Lockstep.ok ⟨rfl, rfl, rfl, rfl, rfl⟩
  simp only [ne_eq, hout, not_false_eq_true, if_true]
  by_cases hword : ∃ word, isWord localName word = true
  · obtain ⟨word, hword⟩ := hword
    cases word <;> simp only [isWord_eq hword, reduceCtorEq, decide_false, decide_true, if_true,
      if_false, Bool.false_eq_true, cVariable, cObs, cTable]
    case vbl | name =>
        cases vbls.object with
        | none => exact Lockstep.error ⟨rfl, rfl, rfl, rfl, rfl⟩
        | some v => exact Lockstep.ok ⟨rfl, rfl, rfl, rfl, rfl⟩
    case values =>
        cases parseInt (trim cbuf) with
        | none => exact Lockstep.error ⟨rfl, rfl, rfl, rfl, rfl⟩
        | some numVals =>
            cases vbls.object with
            | none => exact Lockstep.error ⟨rfl, rfl, rfl, rfl, rfl⟩
            | some v => exact Lockstep.ok ⟨rfl, rfl, rfl, rfl, rfl⟩
    case observed =>
        cases parseInt (trim cbuf) with
        | none => exact Lockstep.error ⟨rfl, rfl, rfl, rfl, rfl⟩
        | some value =>
            cases obs.object with
            | none => exact Lockstep.error ⟨rfl, rfl, rfl, rfl, rfl⟩
            | some v => exact Lockstep.ok ⟨rfl, rfl, rfl, rfl, rfl⟩
    case probability | given | table | forVbl =>
        cases tables.object with
        | none => exact Lockstep.error ⟨rfl, rfl, rfl, rfl, rfl⟩
        | some v => exact Lockstep.ok ⟨rfl, rfl, rfl, rfl, rfl⟩
  · have hnone : ∀ word, isWord localName word = false := fun word =>
      Bool.eq_false_iff.mpr fun h => hword ⟨word, h⟩
    simp only [hnone, Bool.false_eq_true, if_false]
    exact Lockstep.ok ⟨rfl, rfl, rfl, rfl, rfl⟩

theorem lockstep_handle {p q : XBIFParser T} (h : Alike p q) (event : Event) :
    Lockstep Alike Alike (p.handle parseInt parseTable event)
      (q.handle parseInt parseTable event) := by
  cases event with
  | startElement localName => exact lockstep_startElement h localName
  | endElement localName => exact lockstep_endElement parseInt parseTable h localName
  | characters ch =>
      refine Lockstep.ok ?_
      unfold characters
      rw [h.parserState, h.cbuf]
      split_ifs
      · exact ⟨rfl, rfl, h.vbls, h.obs, h.tables⟩
      · exact ⟨rfl, rfl, h.vbls, h.obs, h.tables⟩
      · exact h
  | ignorableWhitespace ch => exact Lockstep.ok h
  | processingInstruction target data => exact Lockstep.ok h

theorem left_maps_of_alike {a b : Except (XBIFParser T) (XBIFParser T)}
    (h : Lockstep Alike Alike a b) : (left a).maps = (left b).maps := by
  cases h with
  | error h => exact h.maps
  | ok h => exact h.maps

/-- Without objects left over, nothing is left of what was before. -/
theorem sameMaps_of_untouched {p : XBIFParser T} (h : Untouched p) (hvariable : p.cVariable = none)
    (htable : p.cTable = none) (events : List Event) :
    SameMaps parseInt parseTable p events := by
  obtain ⟨hstate, hobs⟩ := h hvariable htable
  have hstart : Alike p.startDocument (XBIFParser.new T).startDocument :=
    ⟨hstate, rfl, congrArg Objects.clear (Objects.eq_empty hvariable),
      congrArg Objects.clear (Objects.eq_empty hobs),
      congrArg Objects.clear (Objects.eq_empty htable)⟩
  exact left_maps_of_alike (Lockstep.foldlM
    (fun _ _ event h => lockstep_handle parseInt parseTable h event) events hstart)

/-- After any parses, complete or aborted: all well-formed documents in the format (every
`Document`) give the maps that a new handler makes of them if and only if the handler was left
outside of all elements; all well-formed documents do if and only if no variable and no table has
ever begun. -/
theorem parse_independent_iff (history : List (List Event)) :
    ((∀ document : Document, WellFormed document.events →
        SameMaps parseInt parseTable (afterParses parseInt parseTable history) document.events) ↔
      (afterParses parseInt parseTable history).parserState = .outside) ∧
    ((∀ events, WellFormed events →
        SameMaps parseInt parseTable (afterParses parseInt parseTable history) events) ↔
      (afterParses parseInt parseTable history).cVariable = none ∧
        (afterParses parseInt parseTable history).cTable = none) := by
  set p := afterParses parseInt parseTable history with hp
  have huntouched : Untouched p := untouched_afterParses parseInt parseTable history
  have houtside : SameMaps parseInt parseTable p stray.events → p.parserState = .outside := by
    intro hsame
    by_contra hstate
    have htables := congrArg (fun maps : Maps T => (maps.tables (some ['x'])).isSome) hsame
    rw [stray_stale parseInt parseTable hstate, stray_new] at htables
    exact Bool.false_ne_true htables
  refine ⟨⟨fun h => houtside (h stray wellFormed_stray), fun h document _ =>
    sameMaps_of_outside parseInt parseTable h document⟩, fun h => ?_, fun h events _ =>
    sameMaps_of_untouched parseInt parseTable huntouched h.1 h.2 events⟩
  have hstate := houtside (h stray.events wellFormed_stray)
  constructor
  · by_contra hvariable
    obtain ⟨v, hv⟩ := Option.ne_none_iff_exists'.mp hvariable
    exact crossed_variable parseInt parseTable hstate hv (h _ (wellFormed_crossed ..))
  · by_contra htable
    obtain ⟨t, ht⟩ := Option.ne_none_iff_exists'.mp htable
    exact crossed_table parseInt parseTable hstate ht (h _ (wellFormed_crossed ..))

/-- A parse that ends inside a probability element makes the next one read `yx` for `x`. -/
theorem not_sameMaps_stray :
    ¬∀ document : Document, WellFormed document.events →
      SameMaps (fun _ => none) id
        (afterParses (fun _ => none) id [[.startElement "BIF".toList,
          .startElement "PROBABILITY".toList]]) document.events := by
  intro h
  have hstale := stray_stale (fun _ => none) (id : JString → JString)
    (p := afterParses (fun _ => none) id [[.startElement "BIF".toList,
      .startElement "PROBABILITY".toList]]) (by decide)
  have hsame := h stray wellFormed_stray
  rw [SameMaps] at hsame
  rw [hsame, stray_new] at hstale
  exact Bool.false_ne_true hstale.symm

end Stale

end JunctionBox.Xbif
