import Ephp.Proofs.Custody
import Ephp.Proofs.Placement

/-!
# Arms and their matches

A line of the form of an arm is accepted exactly while a match is open.  The accepted arms are
collected behind the most recent header, and unless the next header comes first they are written as
one block, each arm once and in their order.  This is told by the history of a source: what happens
in front of the first header, and then, for each header, what happens while its match is held and
what happens after it is written.
-/

namespace Ephp

open Conversion (startedBy? isArmLine)

/-- A line of the source and the state in which its turn comes. -/
structure Turn where
  line : Text
  state : State

namespace Turn

/-- The state in which the blocks that the line leaves are closed. -/
def settled (turn : Turn) : State :=
  turn.state.before turn.line

/-- The line writes the texts itself, at most two, and leaves the match as it is. -/
def Writes (turn : Turn) (texts : List Text) : Prop :=
  texts.length ≤ 2 ∧ ∃ after, Conversion.convertLine turn.line turn.state = .ok () after ∧
    after.lines = turn.settled.lines ++ texts ∧ after.collected = turn.settled.collected

/-- The line adds the arm to the match and does nothing else. -/
def Adds (turn : Turn) (arm : Arm) : Prop :=
  Conversion.convertLine turn.line turn.state =
    .ok () { turn.settled with collected := turn.settled.collected.add [arm] }

end Turn

/-- The turns of the lines of a source, up to the first line that is refused. -/
def Conversion.turns : List Text → State → List Turn
  | [], _ => []
  | line :: lines, state =>
    ⟨line, state⟩ ::
      match convertLine line state with
      | .ok _ after => turns lines after
      | .error _ _ => []

theorem Conversion.turns_cons {line : Text} {state after : State}
    (done : convertLine line state = .ok () after) (lines : List Text) :
    turns (line :: lines) state = ⟨line, state⟩ :: turns lines after := by
  rw [turns, done]

/-- The texts are what ends a block. -/
inductive IsEnd : List Text → Prop where
  | brace (indent : Int) {text : Text} (known : text ∈ Block.endings) :
      IsEnd [Text.indentation indent ++ text]
  | release (resource : Resource) : IsEnd resource.closing

/-- What can happen between two headers of matches. -/
inductive Event where
  /-- A line of the source writes the texts itself. -/
  | own (turn : Turn) (texts : List Text) (writes : turn.Writes texts)
      (other : startedBy? turn.line = none)
  /-- A line of the source is accepted as an arm. -/
  | armed (turn : Turn) (arm : Arm) (adds : turn.Adds arm)
  /-- A block ends. -/
  | ended (texts : List Text) (known : IsEnd texts)

namespace Event

/-- The turn that an event comes from. -/
def turn? : Event → Option Turn
  | own turn _ _ _ => some turn
  | armed turn _ _ => some turn
  | ended _ _ => none

/-- What is written at once. -/
def lines : Event → List Text
  | own _ texts _ _ => texts
  | armed _ _ _ => []
  | ended texts _ => texts

/-- The arm that is collected. -/
def arm? : Event → Option Arm
  | armed _ arm _ => some arm
  | _ => none

/-- While a match is open the lines of the form of an arm, and no others, are accepted as arms, and
otherwise none are. -/
def Fits (isOpen : Bool) : Event → Prop
  | own turn _ _ _ => isOpen = true → isArmLine turn.line = false
  | armed turn _ _ => isOpen = true ∧ isArmLine turn.line = true
  | ended _ _ => True

theorem arm?_of_fits {event : Event} (fits : event.Fits false) : event.arm? = none := by
  cases event with
  | own turn texts writes other => rfl
  | armed turn arm adds => exact absurd fits.1 Bool.false_ne_true
  | ended texts known => rfl

end Event

/-- Where a match is written, and what happens from there to the next header. -/
structure Writing where
  indent : Int
  after : List Event
  fits : ∀ event ∈ after, event.Fits false

/-- The header of a match and what happens up to the next header. -/
structure Episode where
  header : Turn
  started : Match
  starts : startedBy? header.line = some started
  /-- What happens while the match is held. -/
  during : List Event
  fits : ∀ event ∈ during, event.Fits true
  /-- Where the match is written; without this it is replaced by the next one or still held. -/
  writing : Option Writing
  filled : writing.isSome = true → during.filterMap Event.arm? ≠ []

namespace Episode

/-- The arms that are accepted behind the header, in order. -/
def arms (episode : Episode) : List Arm :=
  episode.during.filterMap Event.arm?

/-- The lines of the match: a first line, one line for each arm, and a last line. -/
def block (episode : Episode) (indent : Int) : List Text :=
  (episode.started.opening?.getD [] :: episode.arms.map Match.armLine ++ ["\x7d;".toList]).map
    (Text.indentation indent ++ ·)

/-- What is written from the header to the next one. -/
def lines (episode : Episode) : List Text :=
  episode.during.flatMap Event.lines ++
    (episode.writing.elim [] fun writing =>
      episode.block writing.indent ++ writing.after.flatMap Event.lines)

/-- The turns from the header to the next one. -/
def turns (episode : Episode) : List Turn :=
  episode.header :: episode.during.filterMap Event.turn? ++
    (episode.writing.elim [] fun writing => writing.after.filterMap Event.turn?)

/-- The match that is held at the end. -/
def held (episode : Episode) : Match :=
  episode.writing.elim (episode.started.add episode.arms) fun _ => .absent

end Episode

/-- What happens in front of the first header and from each header to the next. -/
inductive History where
  | start (opening : List Event) (fits : ∀ event ∈ opening, event.Fits false)
  | next (earlier : History) (episode : Episode)

namespace History

/-- What is written. -/
def lines : History → List Text
  | start opening _ => opening.flatMap Event.lines
  | next earlier episode => earlier.lines ++ episode.lines

/-- The turns of the lines of the source. -/
def turns : History → List Turn
  | start opening _ => opening.filterMap Event.turn?
  | next earlier episode => earlier.turns ++ episode.turns

/-- The match that is held at the end. -/
def held : History → Match
  | start _ _ => .absent
  | next _ episode => episode.held

end History

/-! ## Headers -/

theorem Match.isOpen_add (collected : Match) (arms : List Arm) :
    (collected.add arms).isOpen = collected.isOpen := rfl

theorem Match.lines_of_arms {collected : Match} (bare : collected.arms = []) :
    collected.lines = [] := by
  simp [Match.lines, bare]

/-- The parts of a match fit together: it has a subject exactly if it has a use, and is open then;
it has a target exactly if it is assigned; and it has arms only if it is open. -/
structure Match.Coherent (collected : Match) : Prop where
  used : collected.subject.isSome = true ↔ collected.use.isSome = true
  opened : collected.isOpen = true ↔ collected.subject.isSome = true
  assigned : collected.target.isSome = true ↔ collected.use = some .assigned
  armed : collected.arms ≠ [] → collected.isOpen = true

theorem Match.Coherent.absent : Match.absent.Coherent where
  used := by simp [Match.absent]
  opened := by simp [Match.absent, Match.isOpen]
  assigned := by simp [Match.absent]
  armed := fun filled => absurd rfl filled

section Headers

open Statement

variable {line : Text} {started : Match}

theorem isOpen_of_startedBy? (header : startedBy? line = some started) : started.isOpen = true := by
  obtain ⟨_, statement, found, header⟩ := Conversion.startedBy?_eq_some header
  exact isOpen_of_started? found header

theorem exists_of_startedBy? (header : startedBy? line = some started) :
    (∃ target subject, started = ⟨some subject, some .assigned, some target, []⟩) ∨
      ∃ subject, started = ⟨some subject, some .returned, none, []⟩ := by
  obtain ⟨_, statement, found, header⟩ := Conversion.startedBy?_eq_some header
  cases statement with
  | matchAssign target subject => exact .inl ⟨target, subject, (Option.some.inj header).symm⟩
  | matchReturn subject => exact .inr ⟨subject, (Option.some.inj header).symm⟩
  | _ => cases header

theorem arms_of_startedBy? (header : startedBy? line = some started) : started.arms = [] := by
  rcases exists_of_startedBy? header with ⟨target, subject, rfl⟩ | ⟨subject, rfl⟩ <;> rfl

/-- A match with arms is written with a line for each of them. -/
theorem lines_of_startedBy? (header : startedBy? line = some started) {arms : List Arm}
    (filled : arms ≠ []) :
    (started.add arms).lines =
      started.opening?.getD [] :: arms.map Match.armLine ++ ["\x7d;".toList] := by
  have isOpen : (started.add arms).isOpen = true := by
    rw [Match.isOpen_add, isOpen_of_startedBy? header]
  rcases exists_of_startedBy? header with ⟨target, subject, rfl⟩ | ⟨subject, rfl⟩
  · rw [Match.lines, isOpen]
    simp [Match.add, Match.opening?, filled]
  · rw [Match.lines, isOpen]
    simp [Match.add, Match.opening?, filled]

theorem Match.Coherent.of_startedBy? (header : startedBy? line = some started) (arms : List Arm) :
    (started.add arms).Coherent := by
  have isOpen : (started.add arms).isOpen = true := by
    rw [Match.isOpen_add, isOpen_of_startedBy? header]
  rcases exists_of_startedBy? header with ⟨target, subject, rfl⟩ | ⟨subject, rfl⟩
  · exact ⟨by simp [Match.add], ⟨fun _ => rfl, fun _ => isOpen⟩, by simp [Match.add],
      fun _ => isOpen⟩
  · exact ⟨by simp [Match.add], ⟨fun _ => rfl, fun _ => isOpen⟩, by simp [Match.add],
      fun _ => isOpen⟩

end Headers

/-! ## Longer histories -/

theorem filterMap_singleton {α β : Type} (field : α → Option β) (item : α) :
    [item].filterMap field = (field item).toList := by
  cases found : field item <;> simp [found]

namespace History

variable (history : History)

/-- An event that fits is told behind all others. -/
theorem exists_event (event : Event) (fits : event.Fits history.held.isOpen) :
    ∃ longer : History, longer.turns = history.turns ++ event.turn?.toList ∧
      longer.lines = history.lines ++ event.lines ∧
        longer.held = history.held.add event.arm?.toList := by
  have snoc {events : List Event} {isOpen : Bool} (all : ∀ other ∈ events, other.Fits isOpen)
      (here : event.Fits isOpen) : ∀ other ∈ events ++ [event], other.Fits isOpen := by
    intro other mem
    rcases List.mem_append.mp mem with mem | mem
    · exact all other mem
    · exact List.mem_singleton.mp mem ▸ here
  cases history with
  | start opening all =>
      refine ⟨start (opening ++ [event]) (snoc all fits), ?_, ?_, ?_⟩
      · simp [turns, filterMap_singleton]
      · simp [lines]
      · simp [held, Event.arm?_of_fits fits]
  | next earlier episode =>
      obtain ⟨header, started, starts, during, all, writing, filled⟩ := episode
      cases writing with
      | none =>
          have isOpen : (started.add (during.filterMap Event.arm?)).isOpen = true := by
            rw [Match.isOpen_add, isOpen_of_startedBy? starts]
          refine ⟨next earlier ⟨header, started, starts, during ++ [event],
            snoc all (isOpen ▸ fits), none, by simp⟩, ?_, ?_, ?_⟩
          · simp [turns, Episode.turns, filterMap_singleton]
          · simp [lines, Episode.lines]
          · simp [held, Episode.held, Episode.arms, Match.add_add, filterMap_singleton]
      | some writing =>
          obtain ⟨indent, after, idle⟩ := writing
          refine ⟨next earlier ⟨header, started, starts, during, all,
            some ⟨indent, after ++ [event], snoc idle fits⟩, filled⟩, ?_, ?_, ?_⟩
          · simp [turns, Episode.turns, filterMap_singleton]
          · simp [lines, Episode.lines, Episode.block, Episode.arms]
          · simp [held, Episode.held, Event.arm?_of_fits fits]

/-- A header starts an episode, whatever is held before it. -/
theorem exists_header {header : Turn} {started : Match}
    (starts : startedBy? header.line = some started) :
    ∃ longer : History, longer.turns = history.turns ++ [header] ∧
      longer.lines = history.lines ∧ longer.held = started := by
  refine ⟨next history ⟨header, started, starts, [], by simp, none, by simp⟩, rfl, ?_, ?_⟩
  · simp [lines, Episode.lines]
  · simp [held, Episode.held, Episode.arms]

/-- The match that is held is written as the block of the last header. -/
theorem exists_writing (indent : Int) (written : history.held.lines ≠ []) :
    ∃ longer : History, longer.turns = history.turns ∧
      longer.lines = history.lines ++ history.held.block indent ∧ longer.held = .absent := by
  cases history with
  | start opening all => exact absurd rfl written
  | next earlier episode =>
      obtain ⟨header, started, starts, during, all, writing, filled⟩ := episode
      cases writing with
      | some writing => exact absurd rfl written
      | none =>
          have some_arm : during.filterMap Event.arm? ≠ [] := by
            intro empty
            refine written (Match.lines_of_arms ?_)
            simp [held, Episode.held, Episode.arms, empty, arms_of_startedBy? starts]
          refine ⟨next earlier ⟨header, started, starts, during, all,
            some ⟨indent, [], by simp⟩, fun _ => some_arm⟩, ?_, ?_, rfl⟩
          · simp [turns, Episode.turns]
          · have block := lines_of_startedBy? starts some_arm
            simp [lines, Episode.lines, held, Episode.held, Match.block, Episode.block,
              Episode.arms, block]

theorem coherent_held : history.held.Coherent := by
  cases history with
  | start opening all => exact .absent
  | next earlier episode =>
      obtain ⟨header, started, starts, during, all, writing, filled⟩ := episode
      cases writing with
      | some writing => exact .absent
      | none => exact .of_startedBy? starts _

/-- A match that would not be written has no arms. -/
theorem arms_of_lines (unwritten : history.held.lines = []) : history.held.arms = [] := by
  cases history with
  | start opening all => rfl
  | next earlier episode =>
      obtain ⟨header, started, starts, during, all, writing, filled⟩ := episode
      cases writing with
      | some writing => rfl
      | none =>
          by_contra some_arm
          have added : during.filterMap Event.arm? ≠ [] := by
            simpa [held, Episode.held, Episode.arms, Match.add, arms_of_startedBy? starts]
              using some_arm
          have block := lines_of_startedBy? starts added
          rw [show (started.add (during.filterMap Event.arm?)).lines = [] from unwritten] at block
          simp at block

end History

/-! ## The history of a state -/

namespace State

/-- What is written behind `base`, and the match that is held, are told by a history of the given
turns. -/
def Told (base : List Text) (turns : List Turn) (state : State) : Prop :=
  ∃ history : History, history.turns = turns ∧ state.lines = base ++ history.lines ∧
    state.collected = history.held

namespace Told

variable {base texts : List Text} {turns : List Turn} {state after : State}

theorem start (written : state.lines = base) (idle : state.collected = .absent) :
    Told base [] state :=
  ⟨.start [] (by simp), rfl, by simp [written, History.lines], idle⟩

theorem coherent (told : Told base turns state) : state.collected.Coherent := by
  obtain ⟨history, _, _, held⟩ := told
  exact held ▸ history.coherent_held

theorem congr (told : Told base turns state) (written : after.lines = state.lines)
    (held : after.collected = state.collected) : Told base turns after := by
  obtain ⟨history, told, lines, collected⟩ := told
  exact ⟨history, told, written.trans lines, held.trans collected⟩

theorem event (told : Told base turns state) (event : Event)
    (fits : event.Fits state.collected.isOpen) (written : after.lines = state.lines ++ event.lines)
    (held : after.collected = state.collected.add event.arm?.toList) :
    Told base (turns ++ event.turn?.toList) after := by
  obtain ⟨history, rfl, lines, collected⟩ := told
  rw [collected] at fits held
  obtain ⟨longer, told, longer_lines, longer_held⟩ := history.exists_event event fits
  exact ⟨longer, told, by simp [written, lines, longer_lines], held.trans longer_held.symm⟩

theorem ended (told : Told base turns state) (known : IsEnd texts)
    (written : after.lines = state.lines ++ texts) (held : after.collected = state.collected) :
    Told base turns after := by
  have longer := told.event (.ended texts known) trivial written (by simpa [Event.arm?] using held)
  simpa [Event.turn?] using longer

theorem header (told : Told base turns state) {turn : Turn} {started : Match}
    (starts : startedBy? turn.line = some started) (written : after.lines = state.lines)
    (held : after.collected = started) : Told base (turns ++ [turn]) after := by
  obtain ⟨history, rfl, lines, _⟩ := told
  obtain ⟨longer, told, longer_lines, longer_held⟩ := history.exists_header starts
  exact ⟨longer, told, by rw [written, lines, longer_lines], held.trans longer_held.symm⟩

theorem emit (told : Told base turns state) (indent : Int) {text : Text}
    (known : text ∈ Block.endings) : Told base turns (state.emit indent text) :=
  told.ended (.brace indent known) rfl rfl

/-- Where the match is written, all its arms are, and none is held any more. -/
theorem flushMatch (told : Told base turns state) :
    Told base turns state.flushMatch ∧ state.flushMatch.collected.arms = [] := by
  obtain ⟨history, rfl, lines, collected⟩ := told
  unfold State.flushMatch
  cases found : state.collected.lines with
  | nil =>
      have bare := history.arms_of_lines (collected ▸ found)
      exact ⟨⟨history, rfl, lines, collected⟩, by rw [collected, bare]⟩
  | cons first rest =>
      have written : history.held.lines ≠ [] := by simp [← collected, found]
      obtain ⟨longer, told, longer_lines, longer_held⟩ :=
        history.exists_writing (state.levels.head?.getD 0) written
      refine ⟨⟨longer, told, ?_, longer_held.symm⟩, rfl⟩
      rw [longer_lines, ← List.append_assoc, ← lines, ← collected, Match.block, found]
      rfl

theorem close (told : Told base turns state) (block : Option Block) (level : Int) :
    Told base turns (state.close block level) := by
  rw [State.close]
  split
  · split
    · rename_i resource _
      exact told.ended (.release resource) (by rw [release_eq]) (by rw [release_eq])
    · exact told
  · split
    · exact told.emit level (by decide)
    · split
      · exact ((told.emit level (by decide)).emit level (by decide)).congr rfl rfl
      · split
        · exact (told.emit level (by decide)).congr rfl rfl
        · exact told.emit level (by decide)

theorem closeTop {abandon : State → State} (told : Told base turns state)
    (abandoned : ∀ {state}, Told base turns state → Told base turns (abandon state))
    (held : ∀ state, (abandon state).collected = state.collected) (level : Int) (below : List Int) :
    Told base turns (state.closeTop abandon level below) ∧
      (state.closeTop abandon level below).collected.arms = [] := by
  have popped : Told base turns (state.pop below) := told.congr rfl rfl
  obtain ⟨flushed, bare⟩ := popped.flushMatch
  simp only [State.closeTop]
  split
  · exact ⟨abandoned flushed, by rw [held, bare]⟩
  · exact ⟨flushed.close _ level, by rw [close_collected, bare]⟩

/-- Levels that are closed leave no arms behind. -/
theorem descends {abandon : Int → State → State} (told : Told base turns state)
    (run : Descends abandon state after)
    (abandoned : ∀ level {state}, Told base turns state → Told base turns (abandon level state))
    (held : ∀ level state, (abandon level state).collected = state.collected) :
    Told base turns after ∧ (state.collected.arms = [] → after.collected.arms = []) := by
  induction run with
  | refl state => exact ⟨told, id⟩
  | @step state after level below open_eq rest ih =>
      obtain ⟨closed, bare⟩ := told.closeTop (abandoned level) (held level) level below
      obtain ⟨reached, still⟩ := ih closed
      exact ⟨reached, fun _ => still bare⟩

theorem before (told : Told base turns state) (line : Text) : Told base turns (state.before line) :=
  (told.descends (Conversion.descends_before line state) (fun _ {_} told => told)
    fun _ _ => rfl).1

theorem closeAll (told : Told base turns state) :
    Told base turns state.closeAll ∧
      (state.collected.arms = [] → state.closeAll.collected.arms = []) := by
  have run : Descends endDoLoop state state.closeAll := descends_closeAllFrom rfl
  refine told.descends run (fun level {_} told => ?_) fun _ _ => rfl
  exact (told.emit (level - 4) (by decide)).congr rfl rfl

end Told

end State

/-! ## The turn of a line -/

/-- What a line does to the match: it starts one, it adds an arm to the one that is open, or it
leaves it as it is. -/
inductive Turn.Treats (turn : Turn) (after : State) : Prop where
  | starts {started : Match} (header : startedBy? turn.line = some started)
      (written : after.lines = turn.settled.lines) (held : after.collected = started)
  | adds {arm : Arm} (isOpen : turn.settled.collected.isOpen = true)
      (arm_line : isArmLine turn.line = true)
      (added : after = { turn.settled with collected := turn.settled.collected.add [arm] })
  | leaves (other : startedBy? turn.line = none)
      (regular : turn.settled.collected.isOpen = true → isArmLine turn.line = false)
      (held : after.collected = turn.settled.collected)

section Treats

open Statement

variable {line : Text} {state after : State}

theorem isArmLine_of_apart (apart : Apart line.strip state)
    (isOpen : state.collected.isOpen = true) : isArmLine line = false := by
  rw [isArmLine, Bool.and_eq_false_iff]
  refine .inr ?_
  cases found : read? line.strip with
  | none => rfl
  | some statement =>
      rw [Option.any_some]
      by_contra is_arm
      simp [apart statement found (by simpa using is_arm)] at isOpen

theorem Turn.treats_of_outcome (spoken : line.isRemark = false)
    (outcome : Outcome line.indentOf line.strip (state.before line) after) :
    Turn.Treats ⟨line, state⟩ after := by
  -- Whatever writes a line or opens a block is read as something else than a header of a match.
  have leaves (apart : Apart line.strip (state.before line))
      (other : ∀ statement, read? line.strip = some statement → statement.started? = none)
      (held : after.collected = (state.before line).collected) :
      Turn.Treats ⟨line, state⟩ after := by
    refine .leaves ?_ (isArmLine_of_apart apart) held
    rw [startedBy?, if_neg (by simp [spoken]), Option.bind_eq_none_iff]
    exact other
  have leaves_of {statement : Statement} (found : read? line.strip = some statement)
      (regular : statement.isArm = false) (other : statement.started? = none)
      (held : after.collected = (state.before line).collected) :
      Turn.Treats ⟨line, state⟩ after := by
    refine leaves (.of_read? found regular _) (fun read read_found => ?_) held
    rwa [← Option.some.inj (found.symm.trans read_found)]
  cases outcome with
  | wrote names single apart made _ simple =>
      refine leaves apart (fun statement found => ?_) rfl
      rcases simple statement found with simple | is_arm
      · cases statement with
        | matchAssign target subject => cases simple
        | matchReturn subject => cases simple
        | _ => rfl
      · cases statement with
        | arm values result => rfl
        | defaultArm result => rfl
        | _ => cases is_arm
  | opened names kind owner loop settled apart made =>
      refine leaves apart (fun statement found => ?_) rfl
      cases statement with
      | matchAssign target subject => simp [openedBy?_of_read? found rfl, opened?] at kind
      | matchReturn subject => simp [openedBy?_of_read? found rfl, opened?] at kind
      | _ => rfl
  | acquired names found made => exact leaves_of found rfl rfl rfl
  | looped found => exact leaves_of found rfl rfl rfl
  | ended found waits open_eq made => exact leaves_of found rfl rfl rfl
  | switched found made => exact leaves_of found rfl rfl rfl
  | @labelled statement text found label made =>
      have held : (if (state.before line).casePending then
          (state.before line).emit (line.indentOf - 4) "break;".toList
          else state.before line).collected = (state.before line).collected := by
        split <;> rfl
      cases statement with
      | label value => exact leaves_of found rfl rfl held
      | defaultLabel => exact leaves_of found rfl rfl held
      | _ => cases label
  | @started statement collected names found header =>
      refine .starts ?_ rfl rfl
      rw [startedBy?, if_neg (by simp [spoken]), found, Option.bind_some, header]
  | @armed statement arm found is_arm isOpen made_values made_result =>
      exact .adds isOpen (by simp [isArmLine, spoken, found, is_arm]) rfl

theorem Turn.treats_of_convertLine (done : Conversion.convertLine line state = .ok () after) :
    Turn.Treats ⟨line, state⟩ after := by
  rcases Conversion.convertLine_eq_ok done with ⟨remark, text, _, rfl⟩ | ⟨spoken, outcome⟩
  · refine .leaves (by simp [startedBy?, remark]) (fun _ => by simp [isArmLine, remark]) ?_
    simp [Turn.settled, State.before, remark, State.writeLine]
  · refine Turn.treats_of_outcome spoken ?_
    rwa [State.before, if_neg (by simp [spoken])]

end Treats

namespace State.Told

variable {base lines : List Text} {turns : List Turn} {state after : State}

theorem convertLine {line : Text} (told : Told base turns state)
    (done : Conversion.convertLine line state = .ok () after) :
    Told base (turns ++ [⟨line, state⟩]) after := by
  have left := told.before line
  cases Turn.treats_of_convertLine done with
  | starts header written held => exact left.header header written held
  | @adds arm isOpen arm_line added =>
      have adds : Turn.Adds ⟨line, state⟩ arm := by
        rw [Turn.Adds, ← added]
        exact done
      exact left.event (.armed ⟨line, state⟩ arm adds) ⟨isOpen, arm_line⟩
        (by rw [added]; exact (List.append_nil _).symm) (congrArg State.collected added)
  | leaves other regular held =>
      obtain ⟨_, texts, short, written⟩ := disposes_of_convertLine done
      exact left.event (.own ⟨line, state⟩ texts ⟨short, after, done, written, held⟩ other) regular
        written (held.trans Match.add_nil.symm)

theorem convertLines (told : Told base turns state)
    (done : Conversion.convertLines lines state = .ok () after) :
    Told base (turns ++ Conversion.turns lines state) after := by
  induction lines generalizing turns state with
  | nil =>
      cases done
      simpa [Conversion.turns] using told
  | cons line lines ih =>
      obtain ⟨middle, one, rest⟩ := Conversion.convertLines_cons_eq_ok.mp done
      have further := ih (told.convertLine one) rest
      rwa [List.append_assoc, List.singleton_append, ← Conversion.turns_cons one] at further

end State.Told

namespace Conversion

open State

theorem map_line_turns {lines : List Text} {state after : State}
    (done : convertLines lines state = .ok () after) :
    (turns lines state).map Turn.line = lines := by
  induction lines generalizing state with
  | nil => rfl
  | cons line lines ih =>
      obtain ⟨middle, one, rest⟩ := convertLines_cons_eq_ok.mp done
      rw [turns_cons one, List.map_cons, ih rest]

/-- Between two lines, whatever the source, the parts of the match that is held fit together.  If a
source is converted, its output is told by a history of all its lines: each line that is accepted as
an arm stands once in the block of the header in front of it, in the order of the source, unless the
next header comes before the block is written, and then none of the arms is written.  No arm is
left in the end. -/
theorem arms_between_headers (source : Text) (prior : State) :
    (∀ front back reached, source.lines = front ++ back →
      convertLines front prior.reset = .ok () reached →
        reached.collected.Coherent ∧ Told banner (turns front prior.reset) reached) ∧
      ∀ text final, convert source prior = .ok text final →
        ∃ history : History, history.turns = turns source.lines prior.reset ∧
          history.turns.map Turn.line = source.lines ∧
          text = Text.join ['\n'] (banner ++ history.lines) ∧
          final.collected = history.held ∧ final.collected.arms = [] := by
  have start : Told banner [] prior.reset := .start rfl rfl
  constructor
  · intro front back reached _ done
    have told := start.convertLines done
    exact ⟨told.coherent, told⟩
  · intro text final done
    obtain ⟨reached, passed, rfl, rfl⟩ := convert_eq_ok.mp done
    obtain ⟨flushed, bare⟩ := (start.convertLines passed).flushMatch
    obtain ⟨⟨history, told, lines, held⟩, empty⟩ := flushed.closeAll
    have spoken : history.turns.map Turn.line = source.lines := by
      rw [told, List.nil_append, map_line_turns passed]
    exact ⟨history, told, spoken, by rw [lines], held, empty bare⟩

/-- A match that is replaced, and one whose arms are apart from each other. -/
def replacedMatch : Text :=
  Text.join ['\n'] ["a = match x:".toList, "    case 1: 2".toList, "b = match y:".toList,
    "    case 3: 4".toList, "    c = 5".toList, "    default: 6".toList]

theorem arms_between_headers_replacedMatch :
    (∃ reached, convertLines (replacedMatch.lines.take 2) State.initial.reset = .ok () reached ∧
      reached.collected.arms.length = 1 ∧ reached.collected.Coherent) ∧
    ∃ text final, convert replacedMatch State.initial = .ok text final ∧
      ∃ history : History, history.turns.map Turn.line = replacedMatch.lines ∧
        text = Text.join ['\n'] (banner ++ history.lines) ∧ final.collected = history.held ∧
        final.collected.arms = [] := by
  have between := arms_between_headers replacedMatch State.initial
  constructor
  · have passed : (convertLines (replacedMatch.lines.take 2)).passes
        (fun _ reached => reached.collected.arms.length == 1) State.initial.reset = true := by
      decide +kernel
    obtain ⟨_, reached, done, single⟩ := passes_iff.mp passed
    have held := between.1 _ _ reached (List.take_append_drop 2 _).symm done
    exact ⟨reached, done, beq_iff_eq.mp single, held.1⟩
  · have returned : (convert replacedMatch).returns State.initial = true := by decide +kernel
    obtain ⟨text, final, done⟩ := returns_iff.mp returned
    obtain ⟨history, _, told⟩ := between.2 text final done
    exact ⟨text, final, done, history, told⟩

end Conversion
end Ephp
