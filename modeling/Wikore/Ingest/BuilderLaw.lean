import Wikore.Ingest.DocxParser
import Wikore.Ingest.HtmlParser
import Wikore.Ingest.OdtParser

/-! What the builders receive from the trees of the documents, and the sections that this means: a
heading opens a section, and a text goes to the section opened last, or to an untitled one if no
section is open.  The builders make these sections, whatever they receive. -/

namespace Wikore.Parser

open Budget
open Chunker (ParsedSection findFirstNotOf findLastNotOf findLastNotOf_some findLastNotOf_none)
open ContextBuilder (Bytes utf8)
open XmlNode (localName)

/-! ### The sections of the events -/

/-- A text at the end of the last section, after `sep` unless it is the first there. -/
def addEntryText (sep text : Bytes) (es : List Entry) : List Entry :=
  onLast (Entry.setText (glue sep text)) (if es = [] then [⟨[], 0, []⟩] else es)

/-- A section without a title is not opened. -/
def addSection (title : Bytes) (depth : Nat) (es : List Entry) : List Entry :=
  if title = [] then es else es ++ [⟨title, depth, []⟩]

def receiveEvent (es : List Entry) : Event → List Entry
  | .heading depth title => addSection title depth es
  | .text text => if text = [] then es else addEntryText (utf8 "\n") text es

/-- The sections of a DOCX or an ODT document in the order in which they are opened. -/
def bodyEntries (events : List Event) : List Entry := events.foldl receiveEvent []

namespace HtmlBuilder

/-- The sections, and the text of the line that is read. -/
structure Received where
  entries : List Entry
  pending : Bytes

/-- The sections after the end of the line. -/
def Received.flushed (s : Received) : List Entry :=
  match trim s.pending with
  | none => s.entries
  | some t => addEntryText (utf8 " ") t s.entries

def receiveEvent (s : Received) : HtmlEvent → Received
  | .text t => ⟨s.entries, s.pending ++ t ++ utf8 " "⟩
  | .flush => ⟨s.flushed, []⟩
  | .newline => ⟨onLast (Entry.setText endLine) s.flushed, []⟩
  | .table tbl => ⟨if tbl = [] then s.flushed else addEntryText (utf8 "\n") tbl s.flushed, []⟩
  | .heading depth title => ⟨addSection title depth s.flushed, []⟩

def entries (events : List HtmlEvent) : List Entry := (events.foldl receiveEvent ⟨[], []⟩).flushed

end HtmlBuilder

theorem receive_bodyCommands (es : List Entry) (e : Event) :
    (bodyCommands e).foldl receive es = receiveEvent es e := by
  cases e with
  | heading depth title =>
    unfold bodyCommands receiveEvent addSection
    dsimp only
    split <;> rfl
  | text text =>
    unfold bodyCommands receiveEvent
    dsimp only
    split <;> rfl

theorem receive_body (es : List Entry) (events : List Event) :
    (events.flatMap bodyCommands).foldl receive es = events.foldl receiveEvent es := by
  induction events generalizing es with
  | nil => rfl
  | cons e events ih =>
    rw [List.flatMap_cons, List.foldl_append, receive_bodyCommands, ih]
    rfl

namespace HtmlBuilder

theorem receive_flushText (s : Received) :
    (flushText s.pending).foldl receive s.entries = s.flushed := by
  unfold flushText Received.flushed
  cases trim s.pending <;> rfl

theorem receive_commands (s : Received) (e : HtmlEvent) :
    (commands s.pending e).1.foldl receive s.entries = (receiveEvent s e).entries ∧
      (commands s.pending e).2 = (receiveEvent s e).pending := by
  cases e with
  | text t => exact ⟨rfl, rfl⟩
  | flush => exact ⟨receive_flushText s, rfl⟩
  | newline =>
    refine ⟨?_, rfl⟩
    rw [commands, List.foldl_append, receive_flushText]
    rfl
  | table tbl =>
    refine ⟨?_, rfl⟩
    rw [commands, List.foldl_append, receive_flushText, receiveEvent]
    dsimp only
    split <;> rfl
  | heading depth title =>
    refine ⟨?_, rfl⟩
    rw [commands, List.foldl_append, receive_flushText, receiveEvent, addSection]
    dsimp only
    split <;> rfl

theorem receive_allCommands (s : Received) (events : List HtmlEvent) :
    (allCommands s.pending events).foldl receive s.entries =
      (events.foldl receiveEvent s).flushed := by
  induction events generalizing s with
  | nil => exact receive_flushText s
  | cons e events ih =>
    obtain ⟨hentries, hpending⟩ := receive_commands s e
    rw [allCommands, List.foldl_append, hentries, hpending, ih]
    rfl

/-! ### A text goes to the section that is open when it is received -/

/-- The bytes of a text that no trim takes away. -/
def solid (text : Bytes) : Bytes := text.filter fun c => c ∉ utf8 " \t\r\n"

def addSolid (text : Bytes) (es : List Entry) : List Entry :=
  onLast (Entry.setText (· ++ solid text)) (if es = [] then [⟨[], 0, []⟩] else es)

/-- The sections with their solid texts, when each text is added as it comes. -/
def receiveAtOnce (es : List Entry) : HtmlEvent → List Entry
  | .text t => if solid t = [] then es else addSolid t es
  | .table tbl => if tbl = [] then es else addSolid tbl es
  | .heading depth title => addSection title depth es
  | .flush => es
  | .newline => es

theorem solid_append (s t : Bytes) : solid (s ++ t) = solid s ++ solid t := List.filter_append ..

/-- A trim keeps what is solid, and gives nothing only where nothing is. -/
theorem solid_trim (s : Bytes) :
    trim s = none ∧ solid s = [] ∨ ∃ t, trim s = some t ∧ solid t = solid s ∧ solid s ≠ [] := by
  have hset : ∀ c ∈ utf8 " \t\r\n", (decide (c ∉ utf8 " \t\r\n")) = false := fun c hc => by
    simp [hc]
  unfold trim
  cases hfirst : findFirstNotOf (utf8 " \t\r\n") s with
  | none => exact .inl ⟨rfl, filter_of_findFirstNotOf_none hset hfirst⟩
  | some first =>
    cases hlast : findLastNotOf (utf8 " \t\r\n") s with
    | none => exact .inl ⟨rfl, filter_eq_nil_of_mem hset (findLastNotOf_none hlast)⟩
    | some last =>
      refine .inr ⟨_, rfl, filter_substr hset hfirst hlast, fun hnil => ?_⟩
      obtain ⟨hlt, hkeep, -⟩ := findLastNotOf_some hlast
      have hdrop := List.filter_eq_nil_iff.mp hnil s[last] (List.getElem_mem hlt)
      exact hdrop (decide_eq_true hkeep)

theorem solid_glue {sep : Bytes} (hsep : solid sep = []) (text old : Bytes) :
    solid (glue sep text old) = solid old ++ solid text := by
  unfold glue
  rw [solid_append]
  split
  next h => rw [h]
  next => rw [solid_append, hsep, List.append_nil]

theorem solid_endLine (text : Bytes) : solid (endLine text) = solid text := by
  unfold endLine
  split
  · rw [solid_append]
    exact List.append_nil _
  · rfl

def solidTexts (es : List Entry) : List Entry := es.map (Entry.setText solid)

/-- The last section is changed in the same way, whether its text is filtered before or after. -/
theorem solidTexts_onLast {f : Bytes → Bytes} {g : Bytes → Bytes}
    (h : ∀ t, solid (f t) = g (solid t)) (es : List Entry) :
    solidTexts (onLast (Entry.setText f) es) = onLast (Entry.setText g) (solidTexts es) := by
  cases es using List.reverseRecOn with
  | nil => rfl
  | append_singleton es e =>
    unfold solidTexts
    rw [onLast_concat, List.map_append, List.map_append, List.map_singleton, List.map_singleton,
      onLast_concat]
    simp [Entry.setText, h]

theorem onLast_id (es : List Entry) : onLast (Entry.setText id) es = es := by
  cases es using List.reverseRecOn with
  | nil => rfl
  | append_singleton es e => rw [onLast_concat]; rfl

theorem solidTexts_addText {sep : Bytes} (hsep : solid sep = []) (text : Bytes) (es : List Entry) :
    solidTexts (addEntryText sep text es) = addSolid text (solidTexts es) := by
  unfold addEntryText addSolid
  rw [solidTexts_onLast (g := (· ++ solid text)) (solid_glue hsep text)]
  cases es with
  | nil => rfl
  | cons e es => rfl

theorem solidTexts_addSection (title : Bytes) (depth : Nat) (es : List Entry) :
    solidTexts (addSection title depth es) = addSection title depth (solidTexts es) := by
  unfold addSection solidTexts
  split
  · rfl
  · rw [List.map_append]
    rfl

theorem addSolid_append (s t : Bytes) (es : List Entry) :
    addSolid t (addSolid s es) = addSolid (s ++ t) es := by
  have hne : addSolid s es ≠ [] := by
    unfold addSolid
    cases es using List.reverseRecOn with
    | nil => simp [onLast]
    | append_singleton es e =>
      rw [if_neg (by simp), onLast_concat]
      simp
  conv => lhs; rw [addSolid, if_neg hne]
  unfold addSolid
  generalize (if es = [] then [(⟨[], 0, []⟩ : Entry)] else es) = init
  cases init using List.reverseRecOn with
  | nil => rfl
  | append_singleton init e =>
    rw [onLast_concat, onLast_concat, onLast_concat, solid_append]
    simp [Entry.setText]

theorem addSolid_congr {s t : Bytes} (h : solid s = solid t) (es : List Entry) :
    addSolid s es = addSolid t es := by
  unfold addSolid
  rw [h]

theorem solidTexts_flushed (s : Received) : solidTexts s.flushed =
    if solid s.pending = [] then solidTexts s.entries
    else addSolid s.pending (solidTexts s.entries) := by
  unfold Received.flushed
  rcases solid_trim s.pending with ⟨htrim, hsolid⟩ | ⟨t, htrim, hsame, hsolid⟩
  · rw [htrim, if_pos hsolid]
  · rw [htrim, if_neg hsolid, ← addSolid_congr hsame]
    exact solidTexts_addText rfl t s.entries

/-- What is pending is added at the next flush, before any section is opened. -/
theorem solidTexts_receiveEvent (s : Received) (e : HtmlEvent) :
    solidTexts (receiveEvent s e).flushed = receiveAtOnce (solidTexts s.flushed) e := by
  have hdone : ∀ es : List Entry, solidTexts (Received.flushed ⟨es, []⟩) = solidTexts es := fun es =>
    (solidTexts_flushed ⟨es, []⟩).trans (if_pos rfl)
  cases e with
  | text t =>
    have hpending : solid (s.pending ++ t ++ utf8 " ") = solid (s.pending ++ t) := by
      rw [solid_append]
      exact List.append_nil _
    rw [receiveEvent, receiveAtOnce, solidTexts_flushed, solidTexts_flushed]
    dsimp only
    rw [addSolid_congr hpending, hpending, solid_append]
    by_cases ht : solid t = []
    · rw [if_pos ht, ht, List.append_nil]
      split
      · rfl
      · refine addSolid_congr ?_ _
        rw [solid_append, ht, List.append_nil]
    · rw [if_neg ht, if_neg (by simp [ht])]
      split
      next hs =>
        refine addSolid_congr ?_ _
        rw [solid_append, hs, List.nil_append]
      next => exact (addSolid_append s.pending t _).symm
  | flush => exact hdone _
  | newline =>
    refine (hdone _).trans ?_
    rw [solidTexts_onLast (g := id) solid_endLine, onLast_id]
    rfl
  | table tbl =>
    refine (hdone _).trans ?_
    rw [receiveAtOnce]
    split
    · rfl
    · exact solidTexts_addText rfl tbl s.flushed
  | heading depth title => exact (hdone _).trans (solidTexts_addSection title depth s.flushed)

theorem solidTexts_entries (events : List HtmlEvent) :
    solidTexts (entries events) = events.foldl receiveAtOnce [] := by
  have hfold : ∀ s : Received, solidTexts (events.foldl receiveEvent s).flushed =
      events.foldl receiveAtOnce (solidTexts s.flushed) := by
    induction events with
    | nil => exact fun s => rfl
    | cons e events ih =>
      intro s
      rw [List.foldl_cons, List.foldl_cons, ih, solidTexts_receiveEvent]
  exact hfold ⟨[], []⟩

end HtmlBuilder

/-! ### The events of a DOCX body -/

def DocxParser.events (body : XmlNode) : List Event := body.children.filterMap bodyEvent

/-! ### The events of an ODT body -/

theorem joinWith_cons (sep t : Bytes) (ts : List Bytes) :
    joinWith sep (t :: ts) = t ++ ts.flatMap (sep ++ ·) := by
  induction ts generalizing t with
  | nil => exact (List.append_nil t).symm
  | cons u ts ih =>
    rw [joinWith, ih, List.flatMap_cons, List.append_assoc, List.append_assoc]

/-- The texts, each after `sep` unless it is the first. -/
def joinAfter (first : Bool) (sep : Bytes) (ts : List Bytes) : Bytes :=
  if first then joinWith sep ts else ts.flatMap (sep ++ ·)

theorem joinAfter_cons (first : Bool) (sep t : Bytes) (ts : List Bytes) :
    joinAfter first sep (t :: ts) =
      (if first then [] else sep) ++ (t ++ joinAfter false sep ts) := by
  cases first with
  | true => exact joinWith_cons sep t ts
  | false => exact List.append_assoc sep t _

namespace OdtParser

section Events

variable (asInt : Bytes → Int)

/-- The texts of the paragraphs of a cell, but for the empty ones. -/
def cellTexts (children : List XmlNode) : List Bytes :=
  ((children.filter fun p => localName p.name = utf8 "p" ∨ localName p.name = utf8 "h").map
    (plainText asInt)).filter fun t => t ≠ []

def cellsOf (children : List XmlNode) : List Bytes :=
  (children.filter fun cell => localName cell.name = utf8 "table-cell").map fun cell =>
    joinWith (utf8 " ") (cellTexts asInt cell.children)

def tableOf (children : List XmlNode) : Bytes :=
  (children.filter fun row => localName row.name = utf8 "table-row").flatMap fun row =>
    joinWith (utf8 " | ") (cellsOf asInt row.children) ++ utf8 "\n"

mutual

/-- What the body receives from a node at a place that the walk comes to. -/
def eventsOf (place : Place) : XmlNode → List Event
  | .element name attributes children =>
    if place = .body ∧ localName name = utf8 "h" then
      [.heading (outlineLevel asInt attributes) (trimTitle (plainAll asInt children))]
    else if place = .body ∧ localName name = utf8 "p" then [.text (plainAll asInt children)]
    else if place = .item ∧ localName name = utf8 "p" then
      if plainAll asInt children = [] then [] else [.text (utf8 "- " ++ plainAll asInt children)]
    else if place = .body ∧ localName name = utf8 "table" then [.text (tableOf asInt children)]
    else match place.next (localName name) with
      | some inner => eventsOfAll inner children
      | none => []
  | _ => []

def eventsOfAll (place : Place) : List XmlNode → List Event
  | [] => []
  | node :: rest => eventsOf place node ++ eventsOfAll place rest

end

def events (body : XmlNode) : List Event := eventsOfAll asInt .body body.children

end Events

variable {asInt : Bytes → Int}

theorem cellText_eq (cp : Bool) (nodes : List XmlNode) : Returns (cellText asInt cp nodes)
    (· = joinAfter (!cp) (utf8 " ") (cellTexts asInt nodes)) := by
  induction nodes generalizing cp with
  | nil => cases cp <;> exact .pure rfl
  | cons p rest ih =>
    rw [cellText]
    refine .ite (fun hname => ?_) fun hname => ?_
    · refine .bind (collectAll_returns 0 p.children) fun t ht => ?_
      subst ht
      have hcons : plainText asInt p ≠ [] → cellTexts asInt (p :: rest) =
          plainText asInt p :: cellTexts asInt rest := by
        intro hne
        simp [cellTexts, hname, hne]
      refine .ite (fun hempty => ?_) fun hempty => ?_
      · have hsame : cellTexts asInt (p :: rest) = cellTexts asInt rest := by
          have hempty : plainText asInt p = [] := hempty
          simp [cellTexts, hname, hempty]
        rw [hsame]
        exact ih cp
      rw [hcons hempty, joinAfter_cons]
      refine .ite (fun hcp => ?_) fun hcp => ?_
      · obtain rfl := hcp
        exact .paid (.bind (ih true) fun u hu => .pure (hu ▸ rfl))
      · obtain rfl := Bool.eq_false_iff.mpr hcp
        exact .bind (ih true) fun u hu => .pure (hu ▸ rfl)
    · have hsame : cellTexts asInt (p :: rest) = cellTexts asInt rest := by
        simp [cellTexts, hname]
      rw [hsame]
      exact ih cp

theorem rowText_eq (first : Bool) (nodes : List XmlNode) : Returns (rowText asInt first nodes)
    (· = joinAfter first (utf8 " | ") (cellsOf asInt nodes)) := by
  induction nodes generalizing first with
  | nil => cases first <;> exact .pure rfl
  | cons cell rest ih =>
    rw [rowText]
    refine .ite (fun hname => ?_) fun hname => ?_
    · have hcons : cellsOf asInt (cell :: rest) =
          joinWith (utf8 " ") (cellTexts asInt cell.children) :: cellsOf asInt rest := by
        simp [cellsOf, hname]
      rw [hcons, joinAfter_cons]
      refine .ite (fun hfirst => ?_) fun hfirst => ?_
      · obtain rfl := hfirst
        refine .bind (cellText_eq false cell.children) fun t ht => ?_
        exact .bind (ih false) fun u hu => .pure (ht ▸ hu ▸ rfl)
      · obtain rfl := Bool.eq_false_iff.mpr hfirst
        refine .paid (.bind (cellText_eq false cell.children) fun t ht => ?_)
        exact .bind (ih false) fun u hu => .pure (ht ▸ hu ▸ rfl)
    · have hsame : cellsOf asInt (cell :: rest) = cellsOf asInt rest := by simp [cellsOf, hname]
      rw [hsame]
      exact ih first

theorem tableText_eq (nodes : List XmlNode) :
    Returns (tableText asInt nodes) (· = tableOf asInt nodes) := by
  induction nodes with
  | nil => exact .pure rfl
  | cons row rest ih =>
    rw [tableText]
    refine .ite (fun hname => ?_) fun hname => ?_
    · have hcons : tableOf asInt (row :: rest) = (joinWith (utf8 " | ")
          (cellsOf asInt row.children) ++ utf8 "\n") ++ tableOf asInt rest := by
        simp [tableOf, hname]
      rw [hcons]
      refine .bind (rowText_eq true row.children) fun t ht => .paid ?_
      refine .bind ih fun u hu => .pure ?_
      rw [ht, hu, List.append_assoc]
      rfl
    · have hsame : tableOf asInt (row :: rest) = tableOf asInt rest := by simp [tableOf, hname]
      rw [hsame]
      exact ih

/-- The changes to the sections for what is received. -/
def receives (o : Outline) (es : List Event) : Outline :=
  (es.flatMap commands).foldl Outline.exec o

theorem receives_append (o : Outline) (es es' : List Event) :
    receives o (es ++ es') = receives (receives o es) es' := by
  unfold receives
  rw [List.flatMap_append, List.foldl_append]

theorem receives_text (o : Outline) (text : Bytes) :
    receives o [.text text] = o.appendLine text := by
  unfold receives
  rw [List.flatMap_singleton]
  exact exec_text o text

theorem receives_heading (o : Outline) {title : Bytes} (h : title ≠ []) (depth : Nat) :
    receives o [.heading depth title] = o.openSection (heading title depth) := by
  unfold receives
  rw [List.flatMap_singleton, commands, bodyCommands, if_neg h]
  rfl

mutual

theorem eventsOf_outside (node : XmlNode) : eventsOf asInt .outside node = [] := by
  match node with
  | .pcdata _ => rfl
  | .cdata _ => rfl
  | .element name attributes children =>
    rw [eventsOf, if_neg (fun h => nomatch h.1), if_neg (fun h => nomatch h.1),
      if_neg (fun h => nomatch h.1), if_neg (fun h => nomatch h.1)]
    split
    next inner hnext =>
      rw [Place.next_outside hnext]
      exact eventsOfAll_outside children
    next => rfl

theorem eventsOfAll_outside (nodes : List XmlNode) : eventsOfAll asInt .outside nodes = [] := by
  match nodes with
  | [] => rfl
  | node :: rest =>
    rw [eventsOfAll, eventsOf_outside node, eventsOfAll_outside rest]
    rfl

end

/-- Nothing is received from a container that the walk does not go into. -/
theorem eventsOf_skipped (place : Place) {name : Bytes} {attributes : List (Bytes × Bytes)}
    {children : List XmlNode} (hbody : place = .body → localName name ≠ utf8 "h" ∧
      localName name ≠ utf8 "p" ∧ localName name ≠ utf8 "table")
    (hitem : place = .item → localName name ≠ utf8 "p")
    (hnext : ∀ inner, place.next (localName name) = some inner → inner = .outside) :
    eventsOf asInt place (.element name attributes children) = [] := by
  rw [eventsOf, if_neg (fun h => (hbody h.1).1 h.2), if_neg (fun h => (hbody h.1).2.1 h.2),
    if_neg (fun h => hitem h.1 h.2), if_neg (fun h => (hbody h.1).2.2 h.2)]
  split
  next inner hinner =>
    rw [hnext inner hinner]
    exact eventsOfAll_outside children
  next => rfl

/-- From a container that the walk goes into all is received that is in it. -/
theorem eventsOf_inside (place : Place) {inner : Place} {name : Bytes} {attributes : List (Bytes × Bytes)}
    {children : List XmlNode} (hbody : place = .body → localName name ≠ utf8 "h" ∧
      localName name ≠ utf8 "p" ∧ localName name ≠ utf8 "table")
    (hitem : place = .item → localName name ≠ utf8 "p")
    (hnext : place.next (localName name) = some inner) :
    eventsOf asInt place (.element name attributes children) = eventsOfAll asInt inner children := by
  rw [eventsOf, if_neg (fun h => (hbody h.1).1 h.2), if_neg (fun h => (hbody h.1).2.1 h.2),
    if_neg (fun h => hitem h.1 h.2), if_neg (fun h => (hbody h.1).2.2 h.2), hnext]

mutual

theorem walkChild_receives (depth : Nat) (node : XmlNode) (o : Outline) :
    Returns (walkChild asInt depth node o) (· = receives o (eventsOf asInt .body node)) := by
  match node with
  | .pcdata _ => exact .pure rfl
  | .cdata _ => exact .pure rfl
  | .element name attributes children =>
    rw [walkChild]
    refine .ite (fun hh => ?_) fun hh => ?_
    · have hevents : eventsOf asInt .body (.element name attributes children) =
          [.heading (outlineLevel asInt attributes) (trimTitle (plainAll asInt children))] := by
        rw [eventsOf, if_pos ⟨rfl, hh⟩]
      rw [hevents]
      refine .bind (collectAll_returns 0 children) fun t ht => ?_
      subst ht
      refine .ite (fun hempty => .pure ?_) fun hne => .pure (receives_heading o hne _).symm
      rw [receives, List.flatMap_singleton, commands, bodyCommands, if_pos hempty]
      rfl
    refine .ite (fun hp => ?_) fun hp => ?_
    · refine .bind (collectAll_returns 0 children) fun t ht => .pure ?_
      subst ht
      rw [eventsOf, if_neg (fun h => hh h.2), if_pos ⟨rfl, hp⟩, receives_text]
    refine .ite (fun hlist => ?_) fun hlist => ?_
    · have hnext : Place.body.next (localName name) = some .list := by
        rw [hlist]
        decide
      have htable : localName name ≠ utf8 "table" := by
        rw [hlist]
        decide
      rw [eventsOf_inside .body (fun _ => ⟨hh, hp, htable⟩) (fun h => nomatch h) hnext]
      exact walkItems_receives depth children o
    refine .ite (fun htable => ?_) fun htable => ?_
    · refine .bind (tableText_eq children) fun t ht => .pure ?_
      subst ht
      rw [eventsOf, if_neg (fun h => hh h.2), if_neg (fun h => hp h.2), if_neg (fun h => hp h.2),
        if_pos ⟨rfl, htable⟩, receives_text]
    refine .ite (fun hsection => ?_) fun hsection => .pure ?_
    · refine .ite (fun _ => .truncate) fun _ => ?_
      have hnext : Place.body.next (localName name) = some .body := by
        rcases hsection with hs | hs <;> rw [hs] <;> decide
      rw [eventsOf_inside .body (fun _ => ⟨hh, hp, htable⟩) (fun h => nomatch h) hnext]
      exact walkAll_receives (depth + 1) children o
    · rw [eventsOf_skipped .body (fun _ => ⟨hh, hp, htable⟩) (fun h => nomatch h)
        (Place.next_body hlist htable hsection)]
      rfl

theorem walkAll_receives (depth : Nat) (nodes : List XmlNode) (o : Outline) :
    Returns (walkAll asInt depth nodes o) (· = receives o (eventsOfAll asInt .body nodes)) := by
  match nodes with
  | [] => exact .pure rfl
  | child :: rest =>
    rw [eventsOfAll, receives_append]
    refine .bind (walkChild_receives depth child o) fun o' ho' => ?_
    subst ho'
    exact walkAll_receives depth rest _

theorem walkItems_receives (depth : Nat) (nodes : List XmlNode) (o : Outline) :
    Returns (walkItems asInt depth nodes o) (· = receives o (eventsOfAll asInt .list nodes)) := by
  match nodes with
  | [] => exact .pure rfl
  | item :: rest =>
    rw [eventsOfAll, receives_append]
    refine .bind (walkItem_receives depth item o) fun o' ho' => ?_
    subst ho'
    exact walkItems_receives depth rest _

theorem walkItem_receives (depth : Nat) (node : XmlNode) (o : Outline) :
    Returns (walkItem asInt depth node o) (· = receives o (eventsOf asInt .list node)) := by
  match node with
  | .pcdata _ => exact .pure rfl
  | .cdata _ => exact .pure rfl
  | .element name attributes children =>
    rw [walkItem]
    refine .ite (fun hitem => ?_) fun hitem => .pure ?_
    · have hnext : Place.list.next (localName name) = some .item := by
        rw [hitem]
        decide
      rw [eventsOf_inside .list (fun h => nomatch h) (fun h => nomatch h) hnext]
      exact walkItemChildren_receives depth children o
    · rw [eventsOf_skipped .list (fun h => nomatch h) (fun h => nomatch h) (Place.next_list hitem)]
      rfl

theorem walkItemChildren_receives (depth : Nat) (nodes : List XmlNode) (o : Outline) :
    Returns (walkItemChildren asInt depth nodes o)
      (· = receives o (eventsOfAll asInt .item nodes)) := by
  match nodes with
  | [] => exact .pure rfl
  | child :: rest =>
    rw [eventsOfAll, receives_append]
    refine .bind (walkItemChild_receives depth child o) fun o' ho' => ?_
    subst ho'
    exact walkItemChildren_receives depth rest _

theorem walkItemChild_receives (depth : Nat) (node : XmlNode) (o : Outline) :
    Returns (walkItemChild asInt depth node o) (· = receives o (eventsOf asInt .item node)) := by
  match node with
  | .pcdata _ => exact .pure rfl
  | .cdata _ => exact .pure rfl
  | .element name attributes children =>
    rw [walkItemChild]
    refine .ite (fun hp => ?_) fun hp => ?_
    · have hevents : eventsOf asInt .item (.element name attributes children) =
          if plainAll asInt children = [] then []
          else [.text (utf8 "- " ++ plainAll asInt children)] := by
        rw [eventsOf, if_neg (fun h => nomatch h.1), if_neg (fun h => nomatch h.1),
          if_pos ⟨rfl, hp⟩]
      rw [hevents]
      refine .bind (collectAll_returns 0 children) fun t ht => ?_
      subst ht
      refine .ite (fun hempty => .pure ?_) fun hne => .pure ?_
      · rw [if_pos hempty]
        rfl
      · rw [if_neg hne, receives_text]
    refine .ite (fun hlist => ?_) fun hlist => .pure ?_
    · refine .ite (fun _ => .truncate) fun _ => ?_
      have hnext : Place.item.next (localName name) = some .body := by
        rw [hlist]
        decide
      rw [eventsOf_inside .item (fun h => nomatch h) (fun _ => hp) hnext]
      exact walkAll_receives (depth + 1) children o
    · rw [eventsOf_skipped .item (fun h => nomatch h) (fun _ => hp) (Place.next_item hlist)]
      rfl

end

end OdtParser

/-! ### The events of an HTML tree -/

mutual

def HtmlNode.events : HtmlNode → List HtmlEvent
  | .text content => if collapseWs content = [] then [] else [.text (collapseWs content)]
  | .other => []
  | .element tag attributes children =>
    if isSuppressedElement tag attributes then []
    else if 0 < headingLevel tag then
      [.heading (headingLevel tag) (trimTitle (textFromChildren [] children))]
    else if nameEq tag "br" then [.newline]
    else if nameEq tag "table" then [.table (flattenTable children)]
    else if isBlockElement tag then .flush :: (eventsOfAll children ++ [.newline])
    else eventsOfAll children

def HtmlNode.eventsOfAll : List HtmlNode → List HtmlEvent
  | [] => []
  | c :: rest => c.events ++ eventsOfAll rest

end

mutual

theorem walkNode_eq (node : HtmlNode) (b : Builder) :
    walkNode node b = node.events.foldl Builder.receive b := by
  match node with
  | .text content =>
    rw [walkNode, HtmlNode.events]
    split <;> rfl
  | .other => rfl
  | .element tag attributes children =>
    rw [walkNode, HtmlNode.events]
    split
    · rfl
    split
    · rfl
    split
    · rfl
    split
    · rfl
    split
    · rw [List.foldl_cons, List.foldl_append, walkNodes_eq children]
      rfl
    · exact walkNodes_eq children b

theorem walkNodes_eq (nodes : List HtmlNode) (b : Builder) :
    walkNodes nodes b = (HtmlNode.eventsOfAll nodes).foldl Builder.receive b := by
  match nodes with
  | [] => rfl
  | c :: rest =>
    rw [walkNodes, HtmlNode.eventsOfAll, List.foldl_append, walkNode_eq c, walkNodes_eq rest]

end

/-- The changes of the builder, with those of the flush at the end. -/
theorem receive_flush (events : List HtmlEvent) (b : Builder) :
    ((events.foldl Builder.receive b).receive .flush).outline =
      (HtmlBuilder.allCommands b.pendingText events).foldl Outline.exec b.outline := by
  induction events generalizing b with
  | nil => rfl
  | cons e events ih =>
    rw [List.foldl_cons, ih, HtmlBuilder.allCommands, List.foldl_append]
    rfl

theorem htmlSections_eq (root : HtmlNode) : htmlSections root =
    ((HtmlBuilder.allCommands [] root.events).foldl Outline.exec ⟨[], []⟩).sections := by
  rw [htmlSections, walkNode_eq, receive_flush]

/-! ### The law -/

/-- Whatever the builders receive and whichever vectors move, no pointer that dangles is followed,
the sections obey the law and are those of the events, and the pointers of the stack denote the
sections they were made for. -/
theorem builders_lawful :
    (∀ base moves (events : List Event), ∃ m, Memory.run Memory.exec moves
        (events.flatMap DocxParser.commands) ⟨base, []⟩ = some m ∧
      m.Lawful base (bodyEntries events) ∧
      ∀ body, DocxParser.events body = events → (parseBody body ⟨base, []⟩).sections = m.sections) ∧
    (∀ base moves (events : List Event), ∃ m, Memory.run Memory.exec moves
        (events.flatMap OdtParser.commands) ⟨base, []⟩ = some m ∧
      m.Lawful base (bodyEntries events) ∧
      ∀ asInt body budget r, OdtParser.events asInt body = events →
        walkAll asInt 0 body.children ⟨base, []⟩ budget = some r → r.1.sections = m.sections) ∧
    (∀ moves events, ∃ m, Memory.run Memory.exec moves
        (HtmlBuilder.allCommands [] events) ⟨[], []⟩ = some m ∧
      m.Lawful [] (HtmlBuilder.entries events) ∧
      HtmlBuilder.solidTexts (HtmlBuilder.entries events) =
        events.foldl HtmlBuilder.receiveAtOnce [] ∧
      ∀ root : HtmlNode, root.events = events → htmlSections root = m.sections) ∧
    (∀ moves ps, ∃ m, Memory.run Memory.flushSection moves ps ⟨[], []⟩ = some m ∧
      m.Lawful [] (ps.map PendingSection.entry)) ∧
    ∀ moves events, ∃ m, plainMemory moves (readEvents events) = some m ∧
      m.sections = plainSections (readEvents events) ∧
      rowsOfAll none 0 m.sections = lawfulRows 0 (plainEntries events) := by
  have hrun : ∀ base moves cs, ∃ m, Memory.run Memory.exec moves cs ⟨base, []⟩ = some m ∧
      m.sections = (cs.foldl Outline.exec ⟨base, []⟩).sections ∧
      m.Lawful base (cs.foldl receive []) := by
    intro base moves cs
    obtain ⟨m, hm, hagrees⟩ := (agrees_nil base).run moves cs
    exact ⟨m, hm, hagrees.holds.sections, hagrees.holds.lawful hagrees.law⟩
  refine ⟨fun base moves events => ?_, fun base moves events => ?_, fun moves events => ?_,
    fun moves ps => ?_, plainMemory_lawful⟩
  · obtain ⟨m, hm, hsections, hlawful⟩ := hrun base moves (events.flatMap DocxParser.commands)
    have hentries : (events.flatMap DocxParser.commands).foldl receive [] = bodyEntries events :=
      receive_body [] events
    refine ⟨m, hm, hentries ▸ hlawful, ?_⟩
    rintro body rfl
    rw [hsections, parseBody_eq]
    rfl
  · obtain ⟨m, hm, hsections, hlawful⟩ := hrun base moves (events.flatMap OdtParser.commands)
    have hentries : (events.flatMap OdtParser.commands).foldl receive [] = bodyEntries events :=
      receive_body [] events
    refine ⟨m, hm, hentries ▸ hlawful, ?_⟩
    rintro asInt body budget r rfl hr
    have hwalk := OdtParser.walkAll_receives 0 body.children ⟨base, []⟩ budget r hr
    rw [hsections, hwalk]
    rfl
  · obtain ⟨m, hm, hsections, hlawful⟩ := hrun [] moves (HtmlBuilder.allCommands [] events)
    have hentries : (HtmlBuilder.allCommands [] events).foldl receive [] =
        HtmlBuilder.entries events := HtmlBuilder.receive_allCommands ⟨[], []⟩ events
    refine ⟨m, hm, hentries ▸ hlawful, HtmlBuilder.solidTexts_entries events, ?_⟩
    rintro root rfl
    rw [hsections, htmlSections_eq]
  · obtain ⟨m, hm, hagrees⟩ := (agrees_nil []).flushAll moves ps
    exact ⟨m, hm, hagrees.holds.lawful hagrees.law⟩

end Wikore.Parser
