import Wikore.Ingest.PlainTextParser
import Wikore.Ingest.SectionLaw
import Wikore.Ingest.VisibleText

/-! The builders of the parsers, as the changes to the sections that they make for what they
receive.  A change is made through the pointers of the stack, and any vector that grows may move. -/

namespace Wikore.Parser

open Chunker (ParsedSection preorder preorders findFirstNotOf findLastNotOf isspace substr)
open ContextBuilder (Bytes utf8)

inductive Command where
  | openSection (title : Bytes) (depth : Nat)
  | implicitSection
  | setText (g : Bytes → Bytes)

/-- `if (!top->text.empty()) top->text += sep; top->text += text`. -/
def glue (sep text old : Bytes) : Bytes := (if old = [] then [] else old ++ sep) ++ text

def Memory.exec (moves : Bool) : Command → Memory → Option Memory
  | .openSection title depth, m => m.openSection moves (heading title depth)
  | .implicitSection, m => some (m.implicitSection moves)
  | .setText g, m => m.onTop (setText g)

def Outline.exec (o : Outline) : Command → Outline
  | .openSection title depth => o.openSection (heading title depth)
  | .implicitSection => o.implicitSection
  | .setText g => if o.stack = [] then o else o.onTop (setText g)

/-- What a change means for the sections in the order in which they were opened. -/
def receive (es : List Entry) : Command → List Entry
  | .openSection title depth => es ++ [⟨title, depth, []⟩]
  | .implicitSection => if es = [] then [⟨[], 0, []⟩] else es
  | .setText g => onLast (Entry.setText g) es

/-- The steps in turn; `moves n` is whether vectors move at step `n`. -/
def Memory.run {α : Type} (step : Bool → α → Memory → Option Memory) (moves : Nat → Bool) :
    List α → Memory → Option Memory
  | [], m => some m
  | x :: xs, m => (step (moves 0) x m).bind (Memory.run step (fun n => moves (n + 1)) xs)

/-! ### What the builders receive -/

/-- `append_text`. -/
def Outline.appendLine (text : Bytes) (o : Outline) : Outline :=
  if text = [] then o else o.appendText (utf8 "\n") text

inductive Event where
  | heading (depth : Nat) (title : Bytes)
  | text (text : Bytes)

/-- The frames of `parse_body` and of `parse_odt_body`, and their `append_text`. -/
def bodyCommands : Event → List Command
  | .heading depth title => if title = [] then [] else [.openSection title depth]
  | .text text =>
    if text = [] then [] else [.implicitSection, .setText (glue (utf8 "\n") text)]

def DocxParser.commands : Event → List Command := bodyCommands

def OdtParser.commands : Event → List Command := bodyCommands

/-- `find_first_not_of` and `find_last_not_of` of `" \t\r\n"`, and what is between. -/
def trim (s : Bytes) : Option Bytes :=
  match findFirstNotOf (utf8 " \t\r\n") s, findLastNotOf (utf8 " \t\r\n") s with
  | some f, some l => some (substr s f (l - f + 1))
  | _, _ => none

/-- A title is trimmed unless it has nothing but blanks. -/
def trimTitle (title : Bytes) : Bytes := (trim title).getD title

inductive HtmlEvent where
  /-- The text of a text node, which is not empty. -/
  | text (t : Bytes)
  | flush
  /-- The flush and the new line after a block. -/
  | newline
  | table (tbl : Bytes)
  | heading (depth : Nat) (title : Bytes)

namespace HtmlBuilder

/-- `flush_text`. -/
def flushText (pending : Bytes) : List Command :=
  match trim pending with
  | none => []
  | some t => [.implicitSection, .setText (glue (utf8 " ") t)]

def endLine (text : Bytes) : Bytes :=
  if text ≠ [] ∧ text.getLast? ≠ some 10 then text ++ utf8 "\n" else text

/-- The changes for an event, and the pending text after it. -/
def commands (pending : Bytes) : HtmlEvent → List Command × Bytes
  | .text t => ([], pending ++ t ++ utf8 " ")
  | .flush => (flushText pending, [])
  | .newline => (flushText pending ++ [.setText endLine], [])
  | .table tbl => (flushText pending ++
      if tbl = [] then [] else [.implicitSection, .setText (glue (utf8 "\n") tbl)], [])
  | .heading depth title =>
    (flushText pending ++ if title = [] then [] else [.openSection title depth], [])

/-- The changes for the events, the last flush included. -/
def allCommands : Bytes → List HtmlEvent → List Command
  | pending, [] => flushText pending
  | pending, e :: events => (commands pending e).1 ++ allCommands (commands pending e).2 events

end HtmlBuilder

/-! ### `flush_to_doc` -/

/-- The loop that pops, which reads the depths through the pointers. -/
def Memory.popThrough (m : Memory) (depth : Nat) : List Frame → Option (List Frame)
  | [] => some []
  | fr :: rest => (m.deref fr).bind fun sec =>
    if depth ≤ sec.depth then m.popThrough depth rest else some (fr :: rest)

/-- One pass of the loop of `flush_to_doc`. -/
def Memory.flushSection (moves : Bool) (p : PendingSection) (m : Memory) : Option Memory :=
  let sec : ParsedSection := ⟨p.heading, p.depth, p.text, [], none⟩
  if p.depth = 0 ∨ m.stack.isEmpty then some ({ m with stack := [] }.pushTop moves sec)
  else (m.popThrough p.depth m.stack).bind fun stack => { m with stack }.push moves sec

/-- A line of `PlainTextParser`, after its marks are read. -/
def readEvent (s : Reading) : Event → Reading
  | .heading depth title =>
    { pending := if s.hasHeadings ∨ s.current.text ≠ [] then s.pending ++ [s.current] else s.pending
      current := ⟨title, depth, []⟩
      hasHeadings := true }
  | .text line => { s with current := { s.current with text := glue (utf8 "\n") line s.current.text } }

def lineEvent (line : Bytes) : Event :=
  let line := dropReturns line
  let hashes := (line.takeWhile fun c => c = 35).length
  if 1 ≤ hashes ∧ hashes ≤ 6 ∧ (line)[hashes]? = some 32 then .heading hashes (line.drop (hashes + 1))
  else .text line

def readEvents (events : List Event) : Reading := events.foldl readEvent ⟨[], ⟨[], 0, []⟩, false⟩

/-- `PlainTextParser::parse` after the lines are read. -/
def plainMemory (moves : Nat → Bool) (s : Reading) : Option Memory :=
  if s.hasHeadings then Memory.run Memory.flushSection moves (s.pending ++ [s.current]) ⟨[], []⟩
  else some ⟨[⟨[], 0, s.current.text, [], none⟩], []⟩

/-- What a line means for the sections in the order in which they are opened. -/
def receiveLine (es : List Entry) : Event → List Entry
  | .heading depth title => es ++ [⟨title, depth, []⟩]
  | .text line =>
    if line = [] ∧ es = [] then es
    else onLast (Entry.setText (glue (utf8 "\n") line)) (receive es .implicitSection)

def plainEntries (events : List Event) : List Entry :=
  let es := events.foldl receiveLine []
  if es = [] then [⟨[], 0, []⟩] else es

theorem readLine_eq (s : Reading) (line : Bytes) : readLine s line = readEvent s (lineEvent line) := by
  unfold readLine lineEvent
  dsimp only
  split <;> rfl

theorem readLines_eq (normalized : Bytes) :
    readLines normalized = readEvents ((Lines.cut 10 normalized).map lineEvent) := by
  rw [readLines, readEvents, List.foldl_map]
  congr 1
  funext s line
  exact readLine_eq s line

/-! ### Trimmed texts -/

theorem trim_set : ∀ c ∈ utf8 " \t\r\n", isspace c = true :=
  List.all_eq_true.mp (show (utf8 " \t\r\n").all isspace = true by decide)

/-- A trimmed title, and the blanks that were around it. -/
theorem exists_trimTitle (t : Bytes) : ∃ front back, t = front ++ (trimTitle t ++ back) ∧
    (∀ c ∈ front, isspace c = true) ∧ ∀ c ∈ back, isspace c = true := by
  unfold trimTitle trim
  split
  next first last hfirst hlast =>
    obtain ⟨front, back, hs, hfront, hback⟩ := exists_around hfirst hlast
    exact ⟨front, back, hs, fun c hc => trim_set c (hfront c hc),
      fun c hc => trim_set c (hback c hc)⟩
  next => exact ⟨[], [], by simp, by simp, by simp⟩

theorem visible_trimTitle (t : Bytes) : visible (trimTitle t) = visible t := by
  obtain ⟨front, back, hs, hfront, hback⟩ := exists_trimTitle t
  conv => rhs; rw [hs]
  rw [visible_append, visible_append, visible_of_isspace hfront, visible_of_isspace hback,
    List.nil_append, List.append_nil]

theorem visible_trim {t s : Bytes} (h : trim s = some t) : visible t = visible s := by
  unfold trim at h
  split at h
  next f l hf hl =>
    cases h
    exact filter_substr (fun c hc => by rw [trim_set c hc]; rfl) hf hl
  next => cases h

theorem visible_of_trim {s : Bytes} (h : trim s = none) : visible s = [] := by
  have hset : ∀ c ∈ utf8 " \t\r\n", (!isspace c) = false := fun c hc => by
    rw [trim_set c hc]
    rfl
  unfold trim at h
  split at h
  · cases h
  next hnone =>
    cases hf : findFirstNotOf (utf8 " \t\r\n") s with
    | none => exact filter_of_findFirstNotOf_none hset hf
    | some f =>
      cases hl : findLastNotOf (utf8 " \t\r\n") s with
      | none => exact filter_eq_nil_of_mem hset (Chunker.findLastNotOf_none hl)
      | some l => exact (hnone f l hf hl).elim

/-! ### Each change -/

section Steps

variable {m : Memory} {o : Outline} {base : List ParsedSection} {es : List Entry}

/-- The three levels agree: the memory, the sections without pointers, and the entries. -/
structure Agrees (base : List ParsedSection) (m : Memory) (o : Outline) (es : List Entry) :
    Prop where
  holds : m.Holds o
  law : o.Law base es

theorem agrees_nil (base : List ParsedSection) : Agrees base ⟨base, []⟩ ⟨base, []⟩ [] :=
  ⟨⟨rfl, rfl, trivial, trivial⟩, Outline.law_nil base⟩

theorem Outline.Law.exec (h : o.Law base es) (c : Command) : (o.exec c).Law base (receive es c) := by
  cases c with
  | openSection title depth => exact h.openSection rfl
  | implicitSection => exact h.implicitSection
  | setText g =>
    show Outline.Law base (if o.stack = [] then o else o.onTop _) (onLast _ es)
    split
    next hstack =>
      obtain rfl := h.stack_eq_nil.mp hstack
      exact h
    next hstack => exact h.setText (mt h.stack_eq_nil.mpr hstack) g

theorem Agrees.exec (h : Agrees base m o es) (moves : Bool) (c : Command) :
    ∃ m', m.exec moves c = some m' ∧ Agrees base m' (o.exec c) (receive es c) := by
  have hlaw := h.law.exec c
  cases c with
  | openSection title depth =>
    obtain ⟨m', hm, hholds⟩ := h.holds.openSection moves (heading title depth)
    exact ⟨m', hm, hholds, hlaw⟩
  | implicitSection => exact ⟨_, rfl, h.holds.implicitSection moves, hlaw⟩
  | setText g =>
    by_cases hstack : o.stack = []
    · have hnil : m.stack = [] := by
        rw [← List.length_eq_zero_iff, h.holds.length_stack, hstack]
        rfl
      refine ⟨m, ?_, ?_, hlaw⟩
      · show m.onTop _ = _
        rw [Memory.onTop, hnil]
      · rw [Outline.exec, if_pos hstack]
        exact h.holds
    · obtain ⟨m', hm, hholds⟩ := h.holds.onTop (f := setText g) (fun _ => rfl) hstack
      refine ⟨m', hm, ?_, hlaw⟩
      rw [Outline.exec, if_neg hstack]
      exact hholds

theorem Agrees.run (h : Agrees base m o es) (moves : Nat → Bool) (cs : List Command) :
    ∃ m', Memory.run Memory.exec moves cs m = some m' ∧
      Agrees base m' (cs.foldl Outline.exec o) (cs.foldl receive es) := by
  induction cs generalizing m o es moves with
  | nil => exact ⟨m, rfl, h⟩
  | cons c cs ih =>
    obtain ⟨m', hm, h'⟩ := h.exec (moves 0) c
    obtain ⟨m'', hrun, h''⟩ := ih h' fun n => moves (n + 1)
    refine ⟨m'', ?_, h''⟩
    rw [Memory.run, hm]
    exact hrun

/-- The depths that are read through the pointers are those on the stack. -/
theorem Memory.Holds.popThrough (h : m.Holds o) (depth : Nat) :
    m.popThrough depth m.stack = some (m.pop depth).stack := by
  have hplaced := h.placed
  have hopened := h.opened
  rw [← h.depths] at hopened
  show _ = some (m.stack.dropWhile _)
  generalize m.stack = stack at hplaced hopened
  induction stack with
  | nil => rfl
  | cons fr rest ih =>
    rw [List.map_cons, List.reverse_cons] at hopened
    obtain ⟨⟨sec, hsec, hdepth⟩, -⟩ := sectionAt_branch hopened
    rw [List.length_reverse, List.length_map, ← hplaced.2.1, ← h.sections] at hsec
    have hderef : m.deref fr = some sec := by rw [Memory.deref, if_pos hplaced.1, hsec]
    rw [Memory.popThrough, hderef, Option.bind_some, hdepth, List.dropWhile_cons]
    by_cases hle : depth ≤ fr.depth
    · rw [if_pos hle, if_pos (decide_eq_true hle)]
      exact ih hplaced.2.2 (OpenDepths.init hopened)
    · rw [if_neg hle, if_neg (by simpa using hle)]

theorem flushSection_eq (o : Outline) (p : PendingSection) :
    flushSection o p = o.openSection ⟨p.heading, p.depth, p.text, [], none⟩ := by
  have hpop : (p.depth = 0 ∨ o.stack = []) → { o with stack := [] } = o.pop p.depth := by
    rintro (hzero | hnil)
    · have hall : ∀ ds : List Nat, ds.dropWhile (fun d => decide (p.depth ≤ d)) = [] := by
        simp [hzero, List.dropWhile_eq_nil_iff]
      rw [Outline.pop, hall]
    · rw [Outline.pop, hnil]
      rfl
  unfold flushSection
  dsimp only
  split
  next h => rw [hpop h]; rfl
  next => rfl

theorem Agrees.flushSection (h : Agrees base m o es) (moves : Bool) (p : PendingSection) :
    ∃ m', m.flushSection moves p = some m' ∧
      Agrees base m' (flushSection o p) (es ++ [⟨p.heading, p.depth, p.text⟩]) := by
  have hlaw : (Parser.flushSection o p).Law base (es ++ [⟨p.heading, p.depth, p.text⟩]) := by
    rw [flushSection_eq]
    exact h.law.openSection rfl
  have hempty : m.stack.isEmpty = true ↔ o.stack = [] := by
    rw [List.isEmpty_iff, ← h.holds.depths, List.map_eq_nil_iff]
  unfold Memory.flushSection
  dsimp only
  split
  next hcase =>
    rw [hempty] at hcase
    have hclosed : Memory.Holds { m with stack := [] } { o with stack := [] } :=
      ⟨h.holds.sections, rfl, trivial, trivial⟩
    refine ⟨_, rfl, ?_, hlaw⟩
    rw [Parser.flushSection, if_pos hcase]
    exact hclosed.pushTop rfl moves _
  next hcase =>
    rw [hempty] at hcase
    rw [h.holds.popThrough, Option.bind_some]
    obtain ⟨m', hm, hholds⟩ := (h.holds.pop p.depth).push moves
      ⟨p.heading, p.depth, p.text, [], none⟩
    refine ⟨m', hm, ?_, hlaw⟩
    rw [Parser.flushSection, if_neg hcase]
    exact hholds

def PendingSection.entry (p : PendingSection) : Entry := ⟨p.heading, p.depth, p.text⟩

theorem Agrees.flushAll (h : Agrees base m o es) (moves : Nat → Bool) (ps : List PendingSection) :
    ∃ m', Memory.run Memory.flushSection moves ps m = some m' ∧
      Agrees base m' (ps.foldl Parser.flushSection o) (es ++ ps.map PendingSection.entry) := by
  induction ps generalizing m o es moves with
  | nil => exact ⟨m, rfl, by simpa using h⟩
  | cons p ps ih =>
    obtain ⟨m', hm, h'⟩ := h.flushSection (moves 0) p
    obtain ⟨m'', hrun, h''⟩ := ih h' fun n => moves (n + 1)
    refine ⟨m'', ?_, ?_⟩
    · rw [Memory.run, hm]
      exact hrun
    · rw [List.append_assoc] at h''
      exact h''

end Steps

theorem implicitSection_stack (o : Outline) : o.implicitSection.stack ≠ [] := by
  unfold Outline.implicitSection
  split
  next hnil =>
    rw [Outline.push, hnil]
    simp
  next hne => exact hne

/-- The changes for a text are `append_text`. -/
theorem exec_text (o : Outline) (text : Bytes) :
    (bodyCommands (.text text)).foldl Outline.exec o = o.appendLine text := by
  unfold bodyCommands Outline.appendLine
  dsimp only
  split
  · rfl
  · show (if o.implicitSection.stack = [] then _ else o.implicitSection.onTop _) = _
    rw [if_neg (implicitSection_stack o)]
    rfl

/-! ### What the sections say -/

/-- The headings and the texts, in the order in which the sections were opened. -/
def said (es : List Entry) : Bytes := es.flatMap fun e => e.heading ++ e.text

theorem said_append (es es' : List Entry) : said (es ++ es') = said es ++ said es' :=
  List.flatMap_append ..

theorem said_concat (es : List Entry) (e : Entry) :
    said (es ++ [e]) = said es ++ (e.heading ++ e.text) := by
  rw [said_append]
  exact congrArg (said es ++ ·) (List.append_nil _)

theorem Outline.Law.said {o : Outline} {es : List Entry} (h : o.Law [] es) :
    (textsOf o.sections).flatten = said es := by
  have hrows := congrArg (List.map Prod.snd) h.rows
  rw [map_rowsOfAll, List.map_append, lawfulRows_entries] at hrows
  have hentries : (preorders o.sections).map entryOf = es := hrows
  rw [textsOf, Parser.said, ← hentries, List.flatMap_map, List.flatten_eq_flatMap,
    List.flatMap_assoc]
  refine List.flatMap_congr fun sec _ => ?_
  simp [entryOf]

/-- A text comes last in what is said, after `sep` unless it is the first of its section. -/
theorem said_receive_glue (sep text : Bytes) (es : List Entry) :
    ∃ gap, (gap = [] ∨ gap = sep) ∧
      said (receive (receive es .implicitSection) (.setText (glue sep text))) =
        said es ++ (gap ++ text) := by
  have hlast : ∀ (init : List Entry) (e : Entry), ∃ gap, (gap = [] ∨ gap = sep) ∧
      said (onLast (Entry.setText (glue sep text)) (init ++ [e])) =
        said (init ++ [e]) ++ (gap ++ text) := by
    intro init e
    rw [onLast_concat, said_concat, said_concat]
    by_cases htext : e.text = []
    · exact ⟨[], .inl rfl, by simp [Entry.setText, glue, htext]⟩
    · exact ⟨sep, .inr rfl, by simp [Entry.setText, glue, htext]⟩
  cases es using List.reverseRecOn with
  | nil => exact hlast [] ⟨[], 0, []⟩
  | append_singleton init e =>
    have hne : receive (init ++ [e]) .implicitSection = init ++ [e] := if_neg (by simp)
    rw [hne]
    exact hlast init e

theorem Outline.Law.execAll {o : Outline} {base : List ParsedSection} {es : List Entry}
    (h : o.Law base es) (cs : List Command) :
    (cs.foldl Outline.exec o).Law base (cs.foldl receive es) := by
  induction cs generalizing o es with
  | nil => exact h
  | cons c cs ih => exact ih (h.exec c)

/-- What is said grows by the text, on a line of its own. -/
theorem Outline.Law.appendLine {o : Outline} {base : List ParsedSection} {es : List Entry}
    (h : o.Law base es) (text : Bytes) :
    ∃ es', (o.appendLine text).Law base es' ∧ ∃ gap, (gap = [] ∨ gap = utf8 "\n") ∧
      Parser.said es' = Parser.said es ++ (gap ++ text) := by
  have hlaw := h.execAll (bodyCommands (.text text))
  rw [exec_text] at hlaw
  by_cases htext : text = []
  · refine ⟨es, ?_, [], .inl rfl, by simp [htext]⟩
    rw [Outline.appendLine, if_pos htext]
    exact h
  · rw [bodyCommands, if_neg htext] at hlaw
    exact ⟨_, hlaw, said_receive_glue (utf8 "\n") text es⟩

/-! ### The lines of a plain text -/

/-- Before the first heading the current section is the preamble, and it is one section only if it
has a text. -/
structure Reading.Receives (s : Reading) (es : List Entry) : Prop where
  titled : s.hasHeadings = true → es = (s.pending ++ [s.current]).map PendingSection.entry
  untitled : s.hasHeadings = false → s.pending = [] ∧ s.current.heading = [] ∧
    s.current.depth = 0 ∧ es = if s.current.text = [] then [] else [s.current.entry]

theorem Reading.Receives.readEvent {s : Reading} {es : List Entry} (h : s.Receives es)
    (e : Event) : (readEvent s e).Receives (receiveLine es e) := by
  obtain ⟨pending, ⟨title, depth, text⟩, hasHeadings⟩ := s
  cases e with
  | heading newDepth newTitle =>
    refine ⟨fun _ => ?_, nofun⟩
    cases hasHeadings with
    | true =>
      rw [receiveLine, h.titled rfl]
      simp [Parser.readEvent, PendingSection.entry]
    | false =>
      obtain ⟨hpending, -, -, hes⟩ := h.untitled rfl
      have hpending : pending = [] := hpending
      rw [receiveLine, hes]
      by_cases htext : text = []
      · simp [Parser.readEvent, PendingSection.entry, hpending, htext]
      · simp [Parser.readEvent, PendingSection.entry, hpending, htext]
  | text line =>
    cases hasHeadings with
    | true =>
      refine ⟨fun _ => ?_, nofun⟩
      have hes := h.titled rfl
      have hne : es ≠ [] := by simp [hes]
      rw [receiveLine, if_neg (fun hand => hne hand.2), receive, if_neg hne, hes, List.map_append,
        List.map_singleton, onLast_concat]
      simp [Parser.readEvent, PendingSection.entry, Entry.setText]
    | false =>
      obtain ⟨hpending, htitle, hdepth, hes⟩ := h.untitled rfl
      obtain rfl : title = [] := htitle
      obtain rfl : depth = 0 := hdepth
      refine ⟨nofun, fun _ => ⟨hpending, rfl, rfl, ?_⟩⟩
      rw [receiveLine, hes]
      show _ = if glue (utf8 "\n") line text = [] then [] else [_]
      by_cases htext : text = []
      · subst htext
        by_cases hline : line = []
        · simp [hline, glue]
        · simp [hline, glue, receive, Entry.setText, PendingSection.entry, onLast,
            Parser.readEvent]
      · simp [htext, glue, receive, Entry.setText, PendingSection.entry, onLast, Parser.readEvent]

theorem readEvents_receives (events : List Event) :
    (readEvents events).Receives (events.foldl receiveLine []) := by
  have hfold : ∀ (events : List Event) (s : Reading) (es : List Entry), s.Receives es →
      (events.foldl readEvent s).Receives (events.foldl receiveLine es) := by
    intro events
    induction events with
    | nil => exact fun s es h => h
    | cons e events ih => exact fun s es h => ih _ _ (h.readEvent e)
  exact hfold events _ [] ⟨nofun, fun _ => ⟨rfl, rfl, rfl, rfl⟩⟩

/-- The pending sections are those that the lines open. -/
theorem plainMemory_lawful (moves : Nat → Bool) (events : List Event) :
    ∃ m, plainMemory moves (readEvents events) = some m ∧
      m.sections = plainSections (readEvents events) ∧
      rowsOfAll none 0 m.sections = lawfulRows 0 (plainEntries events) := by
  have hreceives := readEvents_receives events
  unfold plainMemory plainSections plainEntries
  dsimp only
  generalize readEvents events = s at hreceives
  generalize events.foldl receiveLine [] = es at hreceives
  cases hheadings : s.hasHeadings with
  | true =>
    have hes := hreceives.titled hheadings
    have hne : es ≠ [] := by simp [hes]
    obtain ⟨m, hrun, hm⟩ := (agrees_nil []).flushAll moves (s.pending ++ [s.current])
    refine ⟨m, hrun, hm.holds.sections, ?_⟩
    rw [if_neg hne, hes, hm.holds.sections]
    exact hm.law.rows
  | false =>
    obtain ⟨-, htitle, hdepth, hes⟩ := hreceives.untitled hheadings
    refine ⟨_, rfl, rfl, ?_⟩
    have hentries : (if es = [] then [⟨[], 0, []⟩] else es) = [⟨[], 0, s.current.text⟩] := by
      by_cases htext : s.current.text = []
      · simp [hes, htext]
      · simp [hes, htext, PendingSection.entry, htitle, hdepth]
    rw [hentries]
    rfl

end Wikore.Parser
