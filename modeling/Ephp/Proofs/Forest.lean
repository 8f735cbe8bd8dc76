import Ephp.Proofs.Dedent
import Ephp.Proofs.Lockstep
import Ephp.Program

/-!
# Sources that are forests of blocks

A forest of blocks is written with one line for each node and four columns for each level.  Its
conversion is compositional: a node becomes what its line is on its own, then what its children
become, and then the end of its block.  The lines come in this order although the end of a block is
only written once a later line, or the end of the source, leaves the block.
-/

namespace Ephp

/-- Lines of statements, some of which are headers of blocks. -/
inductive Forest where
  | nil
  /-- A single statement and what follows it. -/
  | leaf (text : Text) (rest : Forest)
  /-- A header with its block and what follows the block. -/
  | block (header : Text) (body rest : Forest)

namespace Statement

/-- Whether a line is a single statement where no match is being collected. -/
def isLeaf (text : Text) : Bool :=
  match (read? text).filter (!·.isArm) with
  | some statement => statement.isSimple
  | none => !text.endsWith [':']

/-- Whether a line is the header of a block, other than of a do loop or a switch, where no match is
being collected. -/
def isBranch (text : Text) : Bool :=
  match (read? text).filter (!·.isArm) with
  | some (.resource _ _) | some (.whileLoop _) => true
  | some statement => statement.isHeader
  | none => text.endsWith [':']

end Statement

namespace Text

/-- A text that can stand on a line behind an indentation and is no remark. -/
structure IsBody (text : Text) : Prop where
  stripped : text.strip = text
  spoken : text.head?.any (· != '#') = true
  unbroken : ∀ char ∈ text, isLineBreak char = false

instance (text : Text) : Decidable text.IsBody :=
  decidable_of_iff (text.strip = text ∧ text.head?.any (· != '#') = true ∧
    text.all (!isLineBreak ·) = true)
    ⟨fun ⟨stripped, spoken, unbroken⟩ => ⟨stripped, spoken, by simpa using unbroken⟩,
      fun ⟨stripped, spoken, unbroken⟩ => ⟨stripped, spoken, by simpa using unbroken⟩⟩

end Text

namespace Forest

/-- The texts of the nodes are bodies of lines of their kinds. -/
def WellFormed : Forest → Prop
  | nil => True
  | leaf text rest => text.IsBody ∧ Statement.isLeaf text = true ∧ rest.WellFormed
  | block header body rest =>
    header.IsBody ∧ Statement.isBranch header = true ∧ body.WellFormed ∧ rest.WellFormed

/-- The lines of a forest at an indentation. -/
def lines (indent : Int) : Forest → List Text
  | nil => []
  | leaf text rest => (Text.indentation indent ++ text) :: rest.lines indent
  | block header body rest =>
    (Text.indentation indent ++ header) :: body.lines (indent + 4) ++ rest.lines indent

/-- The source of a forest. -/
def render (forest : Forest) : Text :=
  Text.join ['\n'] (forest.lines 0)

/-- What a line becomes on its own, where some names are known and nothing is open: the lines that
it writes and the names known after it. -/
def alone (names : Names) (indent : Int) (text : Text) : Except Fault (List Text × Names) :=
  match Conversion.convertBody indent text { State.initial with levels := [], names := names } with
  | .ok _ page => .ok (page.lines, page.names)
  | .error fault _ => .error fault

/-- The end of the block below a header. -/
def closing (indent : Int) (header : Text) : List Text :=
  match Statement.read? header with
  | some (.resource _ handle) => Resource.closing ⟨indent, handle⟩
  | some (.closure _ _) => [Text.indentation (indent + 4) ++ "\x7d;".toList]
  | _ => [Text.indentation (indent + 4) ++ ['}']]

/-- What a forest becomes where some names are known, with the names known after it. -/
def translate (names : Names) (indent : Int) : Forest → Except Fault (List Text × Names)
  | nil => return ([], names)
  | leaf text rest => do
    let (own, names) ← alone names indent text
    let (others, names) ← rest.translate names indent
    return (own ++ others, names)
  | block header body rest => do
    let (own, names) ← alone names indent header
    let (inner, names) ← body.translate names (indent + 4)
    let (others, names) ← rest.translate names indent
    return (own ++ inner ++ closing indent header ++ others, names)

end Forest

namespace Text

theorem dropWhile_isBlank_of_isBody {text : Text} (body : text.IsBody) :
    text.dropWhile isBlank = text := by
  have shorter := (trimEnd_sublist isBlank (text.dropWhile isBlank)).length_le
  rw [show trimEnd isBlank (text.dropWhile isBlank) = text from body.stripped] at shorter
  exact (List.dropWhile_suffix isBlank).eq_of_length_le shorter

theorem isRemark_of_isBody {text : Text} (body : text.IsBody) : text.isRemark = false := by
  rw [isRemark, body.stripped]
  cases text with
  | nil => simpa using body.spoken
  | cons first rest => simpa using body.spoken

theorem strip_indentation_append (indent : Int) {text : Text} (body : text.IsBody) :
    (indentation indent ++ text).strip = text := by
  have blank : ∀ char ∈ indentation indent, isBlank char = true := by
    simp [indentation, isBlank]
  rw [strip, trim, List.dropWhile_append_of_pos blank]
  exact body.stripped

theorem indentOf_indentation_append {indent : Int} (nonneg : 0 ≤ indent) {text : Text}
    (body : text.IsBody) : (indentation indent ++ text).indentOf = indent := by
  have blank : ∀ char ∈ indentation indent, isBlank char = true := by
    simp [indentation, isBlank]
  have whole : text.takeWhile isBlank ++ text.dropWhile isBlank = text :=
    List.takeWhile_append_dropWhile
  rw [dropWhile_isBlank_of_isBody body, List.append_left_eq_self] at whole
  rw [indentOf, List.takeWhile_append_of_pos blank, whole, List.append_nil, indentation,
    List.length_replicate, Int.toNat_of_nonneg nonneg]

theorem lines_cons {char : Char} (inside : isLineBreak char = false) (rest : Text) :
    lines (char :: rest) = consLine char (lines rest) := by
  rw [lines, if_neg (by simp [inside])]
  rintro _ rfl
  simp [isLineBreak] at inside

theorem lines_append_newline {line : Text} (unbroken : ∀ char ∈ line, isLineBreak char = false)
    (rest : Text) : lines (line ++ '\n' :: rest) = line :: lines rest := by
  induction line with
  | nil => rfl
  | cons char line ih =>
      obtain ⟨inside, unbroken⟩ := List.forall_mem_cons.mp unbroken
      rw [List.cons_append, lines_cons inside, ih unbroken, consLine]

theorem lines_of_unbroken {line : Text} (filled : line ≠ [])
    (unbroken : ∀ char ∈ line, isLineBreak char = false) : lines line = [line] := by
  induction line with
  | nil => exact absurd rfl filled
  | cons char line ih =>
      obtain ⟨inside, unbroken⟩ := List.forall_mem_cons.mp unbroken
      rw [lines_cons inside]
      cases line with
      | nil => rfl
      | cons next line => rw [ih (by simp) unbroken, consLine]

/-- Lines that are joined by line feeds can be told apart again. -/
theorem lines_join {texts : List Text} (filled : ∀ text ∈ texts, text ≠ [])
    (unbroken : ∀ text ∈ texts, ∀ char ∈ text, isLineBreak char = false) :
    lines (join ['\n'] texts) = texts := by
  induction texts with
  | nil => rfl
  | cons first texts ih =>
      obtain ⟨first_filled, filled⟩ := List.forall_mem_cons.mp filled
      obtain ⟨first_unbroken, unbroken⟩ := List.forall_mem_cons.mp unbroken
      cases texts with
      | nil => rw [join_singleton, lines_of_unbroken first_filled first_unbroken]
      | cons second texts =>
          rw [join_cons_cons, List.append_assoc, List.singleton_append,
            lines_append_newline first_unbroken, ih filled unbroken]

end Text

namespace Forest

theorem forall_mem_lines {forest : Forest} (formed : forest.WellFormed) (indent : Int) :
    ∀ line ∈ forest.lines indent, line ≠ [] ∧ ∀ char ∈ line, Text.isLineBreak char = false := by
  have node (indent : Int) {text : Text} (body : text.IsBody) :
      Text.indentation indent ++ text ≠ [] ∧
        ∀ char ∈ Text.indentation indent ++ text, Text.isLineBreak char = false := by
    constructor
    · have := body.spoken
      cases text <;> simp_all
    · intro char mem
      rcases List.mem_append.mp mem with mem | mem
      · rw [(List.mem_replicate.mp mem).2]
        rfl
      · exact body.unbroken char mem
  induction forest generalizing indent with
  | nil => simp [lines]
  | leaf text rest rest_ih =>
      obtain ⟨body, _, rest_formed⟩ := formed
      exact List.forall_mem_cons.mpr ⟨node indent body, rest_ih rest_formed indent⟩
  | block header body rest body_ih rest_ih =>
      obtain ⟨header_body, _, body_formed, rest_formed⟩ := formed
      refine List.forall_mem_cons.mpr ⟨node indent header_body, fun line mem => ?_⟩
      rcases List.mem_append.mp mem with mem | mem
      · exact body_ih body_formed _ line mem
      · exact rest_ih rest_formed _ line mem

theorem lines_render {forest : Forest} (formed : forest.WellFormed) :
    forest.render.lines = forest.lines 0 :=
  Text.lines_join (fun line mem => (forall_mem_lines formed 0 line mem).1)
    fun line mem => (forall_mem_lines formed 0 line mem).2

end Forest

namespace State

/-- A state with some names known and nothing else. -/
abbrev blank (names : Names) : State :=
  { State.initial with levels := [], names := names }

/-- A state that is a page on top of another state. -/
def Placed (base page state : State) : Prop :=
  state =
    { base with
      levels := page.levels ++ base.levels
      blocks := page.blocks ++ base.blocks
      names := page.names
      resources := page.resources ++
        base.resources.filter fun entry => page.resources.all (·.1 != entry.1)
      lines := base.lines ++ page.lines }

theorem placed_blank (base : State) : Placed base (blank base.names) base := by
  simp [Placed, State.initial]

theorem local_placed (base : State) : Conversion.Local (Placed base) where
  names_eq placed := by
    subst placed
    rfl
  emit indent text placed := by
    subst placed
    simp [Placed, emit, writeLine]
  openBlock block level placed := by
    subst placed
    rfl
  named names placed := by
    subst placed
    rfl
  acquire {page _} level resource placed := by
    subst placed
    have others : (base.resources.filter fun entry => page.resources.all (·.1 != entry.1)).filter
        (·.1 != level) = base.resources.filter fun entry =>
          (level != entry.1) && (page.resources.filter (·.1 != level)).all (·.1 != entry.1) := by
      rw [List.filter_filter]
      refine List.filter_congr fun entry _ => ?_
      by_cases same : entry.1 = level
      · simp [same]
      · simp only [List.all_filter]
        grind
    simp [Placed, acquire, others]

end State

namespace Conversion

open Statement

/-- Convert the body of a line that leaves no block, where nothing is pending. -/
def convertCalm (indent : Int) (text : Text) : Conversion Unit :=
  match (read? text).filter (!·.isArm) with
  | some (.whileLoop condition) => do
    let written ← expand condition.strip
    openBlock .whileLoop indent ("while (".toList ++ written ++ [')'])
  | some statement => statement.perform indent
  | none => convertUnknown indent text

theorem convertBody_of_calm {state : State} (calm : state.Calm) (indent : Int) (text : Text) :
    convertBody indent text state = convertCalm indent text (state.dedent indent) := by
  have dedented := calm.dedent indent
  have closed : (state.dedent indent).collected.isOpen = false := by rw [dedented.collected]; rfl
  rw [convertBody_eq, convertCalm]
  cases found : read? text with
  | none => rfl
  | some statement =>
      cases statement with
      | whileLoop condition =>
          simp only [applies, if_true, perform, bind_apply]
          change (if (state.dedent indent).doPending = true then _ else _ : Conversion Unit) _ = _
          rw [dedented.doPending]
          rfl
      | arm values result => simp [applies, closed, Option.filter, isArm]
      | defaultArm result => simp [applies, closed, Option.filter, isArm]
      | _ => rfl

/-- A line does the same on a page of its own as on top of a calm state. -/
theorem placed_convertBody {base : State} (calm : base.Calm) (indent : Int) {text : Text}
    (node : isLeaf text = true ∨ isBranch text = true) :
    Agree (State.Placed (base.dedent indent)) (convertBody indent text (.blank base.names))
      (convertBody indent text base) := by
  have rules := (State.local_placed (base.dedent indent)).compositional text
  have keeps : Keeps (State.Placed (base.dedent indent)) (convertCalm indent text) := by
    unfold convertCalm
    unfold isLeaf isBranch at node
    split
    · rename_i condition found
      exact rules.openLoop indent (Option.filter_eq_some_iff.mp found).1
    · rename_i statement other found
      refine rules.perform indent (Option.filter_eq_some_iff.mp found).1 ?_
      simp only [found] at node
      rcases node with simple | branch
      · exact .inl simple
      · right
        cases statement <;> simp_all [isHeader, opened?]
    · exact rules.convertUnknown indent
  have page : (State.blank base.names).Calm := ⟨rfl, rfl, rfl, rfl⟩
  rw [convertBody_of_calm calm, convertBody_of_calm page]
  refine keeps ?_
  have start := State.placed_blank (base.dedent indent)
  rw [State.dedent_names] at start
  exact start

theorem openedBy?_of_isLeaf {text : Text} (leaf : isLeaf text = true) : openedBy? text = none := by
  unfold isLeaf at leaf
  unfold openedBy?
  split
  · rename_i statement found
    simp only [found] at leaf
    cases statement <;> simp_all [isSimple, opened?]
  · rename_i found
    simp_all

theorem isSome_openedBy?_of_isBranch {text : Text} (branch : isBranch text = true) :
    (openedBy? text).isSome = true := by
  unfold isBranch at branch
  unfold openedBy?
  split
  · rename_i statement found
    simp only [found] at branch
    cases statement <;> simp_all [isHeader, opened?]
  · rename_i found
    simp_all

/-- A leaf writes lines and introduces names. -/
theorem exists_line_of_isLeaf {names : Names} {indent : Int} {text : Text} {page : State}
    (leaf : isLeaf text = true) (done : convertBody indent text (.blank names) = .ok () page) :
    ∃ known line, page = (State.blank known).emit indent line := by
  have single := openedBy?_of_isLeaf leaf
  have simple {statement : Statement} (found : read? text = some statement)
      (regular : statement.isArm = false) : statement.isSimple = true := by
    simpa [isLeaf, found, Option.filter, regular] using leaf
  cases outcome_of_convertBody done with
  | wrote known _ _ _ => exact ⟨known, _, rfl⟩
  | opened _ kind _ _ _ _ _ => simp [single] at kind
  | acquired _ found _ => exact absurd (simple found rfl) (by simp [isSimple])
  | looped found => exact absurd (simple found rfl) (by simp [isSimple])
  | ended found _ _ _ => exact absurd (simple found rfl) (by simp [isSimple])
  | switched found _ => exact absurd (simple found rfl) (by simp [isSimple])
  | @labelled statement _ found label _ =>
      cases statement <;> simp [isLabel] at label <;>
        exact absurd (simple found rfl) (by simp [isSimple])
  | @started statement _ _ found header =>
      cases statement <;> simp [started?] at header <;>
        exact absurd (simple found rfl) (by simp [isSimple])
  | armed _ _ _ isOpen _ _ => cases isOpen

theorem blockEnd_of_openedBy? {header : Text} {block : Block} (kind : openedBy? header = some block)
    (owner : block ≠ .resource) (state : State) (indent : Int) :
    state.blockEnd (some block) (indent + 4) = Forest.closing indent header := by
  have plain (other : block ≠ .closure) :
      state.blockEnd (some block) (indent + 4) = [Text.indentation (indent + 4) ++ ['}']] := by
    unfold State.blockEnd
    split <;> simp_all
  unfold Forest.closing
  split
  · rename_i found
    rw [openedBy?_of_read? found rfl] at kind
    exact absurd (Option.some.inj kind).symm owner
  · rename_i found
    rw [openedBy?_of_read? found rfl] at kind
    rw [← Option.some.inj kind]
    rfl
  · rename_i other
    refine plain ?_
    rintro rfl
    cases found : read? header with
    | none => simp [openedBy?, found, Block.unnamed] at kind
    | some statement =>
        cases statement <;> simp_all [openedBy?, opened?, Option.filter, isArm, Block.unnamed]

/-- A branch opens its block, whose end is known from its header. -/
theorem exists_block_of_isBranch {names : Names} {indent : Int} {text : Text} {page : State}
    (branch : isBranch text = true) (done : convertBody indent text (.blank names) = .ok () page) :
    ∃ block, page.levels = [indent + 4] ∧ page.blocks = [block] ∧
      (∀ entry ∈ page.resources, entry.1 = indent + 4) ∧
        (block = .resource → (page.resources.lookup (indent + 4)).isSome) ∧
          page.blockEnd (some block) (indent + 4) = Forest.closing indent text := by
  have several := isSome_openedBy?_of_isBranch branch
  have kind {statement : Statement} (found : read? text = some statement)
      (regular : statement.isArm = false) : statement.isHeader = true ∨
        (∃ acquired handle, statement = .resource acquired handle) ∨
          ∃ condition, statement = .whileLoop condition := by
    cases statement <;> simp_all [isBranch, isHeader, Option.filter, isArm]
  cases outcome_of_convertBody done with
  | wrote _ single _ _ => simp [single] at several
  | opened _ opened owner _ _ _ _ =>
      refine ⟨_, rfl, rfl, by simp [State.openBlock, State.emit, State.writeLine, State.initial],
        fun same => absurd same owner, ?_⟩
      exact blockEnd_of_openedBy? opened owner _ indent
  | acquired _ found _ =>
      refine ⟨_, rfl, rfl, by simp [State.acquire, State.openBlock, State.emit, State.writeLine,
        State.initial], by simp [State.acquire], ?_⟩
      simp [State.blockEnd, State.acquire, State.openBlock, Forest.closing, found]
  | looped found => exact absurd (kind found rfl) (by simp [isHeader])
  | ended _ waits _ _ => cases waits
  | switched found _ => exact absurd (kind found rfl) (by simp [isHeader])
  | @labelled statement _ found label _ =>
      cases statement <;> simp [isLabel] at label <;>
        exact absurd (kind found rfl) (by simp [isHeader])
  | @started statement _ _ found header =>
      cases statement <;> simp [started?] at header <;>
        exact absurd (kind found rfl) (by simp [isHeader])
  | armed _ _ _ isOpen _ _ => cases isOpen

end Conversion

namespace State

/-- A calm state that goes on from `base` with more lines and with other names, and that knows the
resources of the levels up to `level`. -/
structure Continues (base : State) (level : Int) (written : List Text × Names) (state : State) :
    Prop where
  calm : state.Calm
  levels : state.levels = base.levels
  blocks : state.blocks = base.blocks
  names : state.names = written.2
  lines : state.lines = base.lines ++ written.1
  lookup : ∀ key ≤ level, state.resources.lookup key = base.resources.lookup key

/-- A calm state that goes on from `base` in a new block. -/
structure Opens (base : State) (indent : Int) (header : Text) (written : List Text × Names)
    (state : State) : Prop where
  calm : state.Calm
  levels : state.levels = (indent + 4) :: base.levels
  blocks : ∃ block, state.blocks = block :: base.blocks
  names : state.names = written.2
  lines : state.lines = base.lines ++ written.1
  lookup : ∀ key ≤ indent, state.resources.lookup key = base.resources.lookup key
  ending : state.blockEnd state.blocks.head? (indent + 4) = Forest.closing indent header

variable {base middle state : State} {indent : Int} {own inner : List Text} {known names : Names}

theorem Continues.trans (first : Continues base indent (own, known) middle)
    (second : Continues middle indent (inner, names) state) :
    Continues base indent (own ++ inner, names) state where
  calm := second.calm
  levels := second.levels.trans first.levels
  blocks := second.blocks.trans first.blocks
  names := second.names
  lines := by rw [second.lines, first.lines, List.append_assoc]
  lookup key within := (second.lookup key within).trans (first.lookup key within)

/-- Leaving the block below a header writes its end behind what the block has written. -/
theorem Opens.close {header : Text} (opens : Opens base indent header (own, known) middle)
    (inside : ∀ level ∈ base.levels.head?, level ≤ indent)
    (body : Continues middle (indent + 4) (inner, names) state) :
    Continues base indent (own ++ inner ++ Forest.closing indent header, names)
      (state.dedent indent) := by
  obtain ⟨block, blocks_eq⟩ := opens.blocks
  have open_eq := body.levels.trans opens.levels
  have ending : state.blockEnd state.blocks.head? (indent + 4) = Forest.closing indent header := by
    rw [← opens.ending, body.blocks]
    simp only [blockEnd, body.lookup (indent + 4) (Int.le_refl _)]
  rw [dedent_of_lt open_eq (by omega), closeTop_of_calm body.calm, ending,
    dedent_eq_self (by exact inside)]
  exact
    { calm := ⟨body.calm.doPending, body.calm.switchPending, body.calm.casePending,
        body.calm.collected⟩
      levels := rfl
      blocks := by simp [State.pop, body.blocks, blocks_eq]
      names := body.names
      lines := by simp [body.lines, opens.lines]
      lookup := fun key within =>
        (body.lookup key (by omega)).trans (opens.lookup key within) }

end State

namespace Conversion

open Statement

theorem lookup_placed {base page state : State} (placed : State.Placed base page state) (key : Int)
    (other : ∀ entry ∈ page.resources, entry.1 ≠ key) :
    state.resources.lookup key = base.resources.lookup key := by
  subst placed
  have absent : page.resources.lookup key = none :=
    List.lookup_eq_none_iff.mpr fun entry mem => by simpa using Ne.symm (other entry mem)
  rw [List.lookup_append, absent, Option.none_or]
  exact Resource.lookup_filter (fun _ => by simpa using other) base.resources

/-- A result that meets what is expected of it: the same fault, or an answer in a state that is as
it should be. -/
inductive Meets {α : Type} (holds : α → State → Prop) :
    Except Fault α → EStateM.Result Fault State Unit → Prop where
  | ok {answer : α} {after : State} (reached : holds answer after) :
      Meets holds (.ok answer) (.ok () after)
  | error {fault : Fault} {after : State} : Meets holds (.error fault) (.error fault after)

theorem Meets.bind {α β : Type} {holds : α → State → Prop} {later : β → State → Prop}
    {expected : Except Fault α} {next : α → Except Fault β} {first second : Conversion Unit}
    {state : State} (meets : Meets holds expected (first state))
    (rest : ∀ answer middle, holds answer middle → Meets later (next answer) (second middle)) :
    Meets later (expected >>= next) ((first >>= fun _ => second) state) := by
  rw [bind_apply]
  generalize first state = result at meets
  cases meets with
  | ok reached => exact rest _ _ reached
  | error => exact .error

theorem Meets.map {α β : Type} {holds : α → State → Prop} {later : β → State → Prop}
    {expected : Except Fault α} {change : α → β} {result : EStateM.Result Fault State Unit}
    (meets : Meets holds expected result)
    (rest : ∀ answer after, holds answer after → later (change answer) after) :
    Meets later (expected >>= fun answer => pure (change answer)) result := by
  cases meets with
  | ok reached => exact .ok (rest _ _ reached)
  | error => exact .error

theorem meets_leaf {base : State} (calm : base.Calm) (indent : Int) {text : Text}
    (leaf : isLeaf text = true) :
    Meets (State.Continues (base.dedent indent) indent) (Forest.alone base.names indent text)
      (convertBody indent text base) := by
  have agree := placed_convertBody calm indent (.inl leaf)
  unfold Forest.alone
  generalize page_eq : convertBody indent text (.blank base.names) = page,
    convertBody indent text base = result at agree ⊢
  cases agree with
  | error _ => exact .error
  | ok placed =>
      obtain ⟨known, line, rfl⟩ := exists_line_of_isLeaf leaf page_eq
      have lookup (key : Int) :=
        lookup_placed placed key (by simp [State.emit, State.writeLine, State.initial])
      subst placed
      have dedented := calm.dedent indent
      exact .ok
        { calm := ⟨dedented.doPending, dedented.switchPending, dedented.casePending,
            dedented.collected⟩
          levels := rfl
          blocks := rfl
          names := rfl
          lines := rfl
          lookup := fun key _ => lookup key }

theorem meets_branch {base : State} (calm : base.Calm) (indent : Int) {text : Text}
    (branch : isBranch text = true) :
    Meets (State.Opens (base.dedent indent) indent text) (Forest.alone base.names indent text)
      (convertBody indent text base) := by
  have agree := placed_convertBody calm indent (.inr branch)
  unfold Forest.alone
  generalize page_eq : convertBody indent text (.blank base.names) = page,
    convertBody indent text base = result at agree ⊢
  cases agree with
  | error _ => exact .error
  | ok placed =>
      obtain ⟨block, levels, blocks, entries, owned, ending⟩ :=
        exists_block_of_isBranch branch page_eq
      have lookup (key : Int) (within : key ≤ indent) :=
        lookup_placed placed key fun entry mem => by
          have := entries entry mem
          omega
      subst placed
      have dedented := calm.dedent indent
      exact .ok
        { calm := ⟨dedented.doPending, dedented.switchPending, dedented.casePending,
            dedented.collected⟩
          levels := by simp [levels]
          blocks := ⟨block, by simp [blocks]⟩
          names := rfl
          lines := rfl
          lookup := lookup
          ending := by
            rw [← ending, blocks, List.singleton_append, List.head?_cons]
            by_cases owner : block = .resource
            · subst owner
              obtain ⟨resource, found⟩ := Option.isSome_iff_exists.mp (owned rfl)
              simp [State.blockEnd, List.lookup_append, found]
            · unfold State.blockEnd
              split <;> simp_all }

theorem convertLine_of_isBody {indent : Int} (nonneg : 0 ≤ indent) {text : Text}
    (body : text.IsBody) :
    convertLine (Text.indentation indent ++ text) = convertBody indent text := by
  have same := Text.strip_indentation_append indent body
  have spoken : (Text.indentation indent ++ text).isRemark = false := by
    have alone := Text.isRemark_of_isBody body
    rw [Text.isRemark, body.stripped] at alone
    rw [Text.isRemark, same, alone]
  rw [convertLine_of_isRemark_eq_false spoken, Text.indentOf_indentation_append nonneg body, same]

/-- The lines of a forest write what the forest becomes, once all of its blocks are left.  In the
state that they reach the last of these blocks can still be open. -/
theorem meets_translate {forest : Forest} (formed : forest.WellFormed) {indent : Int}
    (nonneg : 0 ≤ indent) {state : State} (calm : state.Calm) :
    Meets (fun written after => after.Calm ∧
        State.Continues (state.dedent indent) indent written (after.dedent indent))
      (forest.translate state.names indent) (convertLines (forest.lines indent) state) := by
  induction forest generalizing indent state with
  | nil =>
      exact .ok ⟨calm, calm.dedent indent, rfl, rfl, State.dedent_names indent state,
        (List.append_nil _).symm, fun _ _ => rfl⟩
  | leaf text rest rest_ih =>
      obtain ⟨body, leaf, rest_formed⟩ := formed
      rw [Forest.lines, convertLines_cons, convertLine_of_isBody nonneg body]
      refine (meets_leaf calm indent leaf).bind fun ⟨own, known⟩ middle first => ?_
      obtain rfl := first.names
      have settled : middle.dedent indent = middle :=
        State.dedent_eq_self fun level top => State.dedent_levels_head_le (first.levels ▸ top)
      refine (rest_ih rest_formed nonneg first.calm).map fun ⟨others, names⟩ after => ?_
      rintro ⟨after_calm, second⟩
      rw [settled] at second
      exact ⟨after_calm, first.trans second⟩
  | block header body rest body_ih rest_ih =>
      obtain ⟨header_body, branch, body_formed, rest_formed⟩ := formed
      rw [Forest.lines, List.cons_append, convertLines_cons,
        convertLine_of_isBody nonneg header_body, convertLines_append]
      refine (meets_branch calm indent branch).bind fun ⟨own, known⟩ middle opens => ?_
      obtain rfl := opens.names
      have settled : middle.dedent (indent + 4) = middle :=
        State.dedent_eq_self (by simp [opens.levels])
      refine (body_ih body_formed (by omega) opens.calm).bind fun ⟨inner, names⟩ last => ?_
      rintro ⟨last_calm, inside⟩
      -- The block is still open here; the next line at the indentation of its header leaves it.
      rw [settled] at inside
      have closed := opens.close (fun _ top => State.dedent_levels_head_le top) inside
      rw [State.dedent_dedent (by omega)] at closed
      obtain rfl : last.names = names := by simpa using closed.names
      refine (rest_ih rest_formed nonneg last_calm).map fun ⟨others, names⟩ after => ?_
      rintro ⟨after_calm, further⟩
      exact ⟨after_calm, closed.trans further⟩

end Conversion

namespace Program

/-- The source of a forest becomes the banner and what the forest becomes, or fails as the forest
does. -/
theorem output_render {forest : Forest} (formed : forest.WellFormed) :
    output forest.render =
      (forest.translate .empty 0).map fun written =>
        Text.join ['\n'] (banner ++ written.1) := by
  have calm : State.initial.reset.Calm := ⟨rfl, rfl, rfl, rfl⟩
  have meets := Conversion.meets_translate formed (Int.le_refl 0) calm
  rw [show State.initial.reset.dedent 0 = State.initial.reset from rfl] at meets
  rw [output, Conversion.convert_eq, Forest.lines_render formed]
  change Conversion.Meets _ (forest.translate .empty 0) _ at meets
  generalize forest.translate .empty 0 = expected,
    Conversion.convertLines (forest.lines 0) State.initial.reset = result at meets ⊢
  cases meets with
  | error => rfl
  | ok reached =>
      obtain ⟨after_calm, continues⟩ := reached
      rename_i written after
      -- Above the bottom there are only deeper levels.
      have open_eq : after.levels = after.levels.takeWhile (0 < ·) ++ [0] := by
        have bottom := continues.levels
        rw [State.dedent_levels] at bottom
        conv_lhs =>
          rw [← List.takeWhile_append_dropWhile (p := (0 < ·)) (l := after.levels), bottom]
        rfl
      have positive : ∀ level ∈ after.levels.takeWhile (0 < ·), 0 < level := fun level mem => by
        simpa using List.all_eq_true.mp List.all_takeWhile level mem
      have ended : after.flushMatch.closeAll = after.dedent 0 := by
        rw [State.flushMatch_of_absent after_calm.collected,
          State.closeAll_eq_dedent open_eq positive after_calm.doPending]
      change Except.ok (Text.join ['\n'] after.flushMatch.closeAll.lines) = _
      rw [ended, continues.lines]
      rfl

/-- A function with a conditional in a loop, an empty branch, a resource and a statement. -/
def sample : Forest :=
  .block "func f(a) int:".toList
    (.block "for i in range(a):".toList
      (.block "if i > 2:".toList (.leaf "print(i)".toList .nil) <|
        .block "else:".toList .nil .nil) <|
      .leaf "return a".toList .nil) <|
  .block "with open(\"x\") as h:".toList (.leaf "b = h".toList .nil) <|
  .leaf "f(b)".toList .nil

theorem output_render_sample :
    sample.WellFormed ∧
      output sample.render =
        (sample.translate .empty 0).map fun written =>
          Text.join ['\n'] (banner ++ written.1) := by
  have formed : sample.WellFormed := by
    simp only [sample, Forest.WellFormed]
    decide +kernel
  exact ⟨formed, output_render formed⟩

end Program
end Ephp
