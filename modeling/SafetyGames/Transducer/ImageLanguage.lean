import SafetyGames.Transducer.ImageGroup

/-!
# The language of the built image

`Out` is the language of a product state: the words that the transducer writes
while it reads a word accepted by the automaton.  The built automaton accepts
the language of the initial product state provided that no self-loop does
harm: `imageRec` lets a self-loop of the automaton stand for any number of
further letters, and does not look at what lies behind a second one.
-/

namespace SafetyGames.Transducer

open SafetyGames.LabelledPath

/-! ## The letters that are written -/

/-- The letters that `imageRec` writes for the pairs of a path.  The output of
an epsilon transition is written even where it is `'-'`. -/
def written (pairs : List TransducerPair) : Word :=
  (pairs.filter fun pair => pair.u = dash ∨ pair.v ≠ dash).map
    TransducerPair.v

section Written

variable {pair : TransducerPair}

theorem written_cons (pairs : List TransducerPair) :
    written (pair :: pairs) = written [pair] ++ written pairs := by
  rw [written, written, written, ← List.map_append, ← List.filter_append]
  rfl

theorem written_epsilon (epsilon : pair.u = dash) :
    written [pair] = [pair.v] := by
  simp [written, epsilon]

theorem written_letter (letter : pair.v ≠ dash) :
    written [pair] = [pair.v] := by
  simp [written, letter]

theorem written_silent (alpha : pair.u ≠ dash) (silent : pair.v = dash) :
    written [pair] = [] := by
  simp [written, alpha, silent]

end Written

namespace TransducerAutomaton

variable (ta : TransducerAutomaton)

/-- `imageRec` writes `v` along an accepting path from `source` that reads `u`. -/
def WritesFrom (source : Nat) (u v : Word) : Prop :=
  ∃ pairs target, Path ta.states.Step source pairs target ∧
    (ta.state target).accept = true ∧
      erase (pairs.map TransducerPair.u) = u ∧ written pairs = v

/-- The words that `imageRec` writes for the words of a language. -/
def writtenImage (language : Set Word) : Set Word :=
  {v | ∃ u ∈ language, ta.WritesFrom ta.initial u v}

variable {ta}

theorem WritesFrom.nil {source : Nat}
    (accept : (ta.state source).accept = true) :
    ta.WritesFrom source [] [] :=
  ⟨[], source, Path.nil source, accept, rfl, rfl⟩

theorem WritesFrom.cons {source : Nat} {transition : TransducerTransition}
    {u v : Word} (writes : ta.WritesFrom transition.dest u v)
    (member : transition ∈ (ta.state source).transitions) :
    ta.WritesFrom source (erase [transition.pair.u] ++ u)
      (written [transition.pair] ++ v) := by
  rcases writes with ⟨pairs, target, path, accept, rfl, rfl⟩
  refine ⟨transition.pair :: pairs, target, Path.cons member path, accept, ?_,
    written_cons pairs⟩
  rw [erase, erase, erase, ← List.filter_append]
  rfl

/-- Without `('-', '-')` the letters written are the output. -/
theorem NoEmptyPair.written_eq (noEmptyPair : ta.NoEmptyPair)
    {source target : Nat} {pairs : List TransducerPair}
    (path : Path ta.states.Step source pairs target) :
    written pairs = erase (pairs.map TransducerPair.v) := by
  have speaks : ∀ pair ∈ pairs, pair.u = dash → pair.v ≠ dash := by
    refine path.forall_label (fun _ => True) ?_ trivial
    exact fun _ _ _ _ step => ⟨noEmptyPair.letter step, trivial⟩
  rw [written, erase, List.filter_map]
  congr 1
  apply List.filter_congr
  intro pair member
  have isLetter := speaks pair member
  simp only [Function.comp_apply, decide_eq_decide]
  exact ⟨fun writes => writes.elim isLetter id, Or.inr⟩

theorem NoEmptyPair.writtenImage_eq (noEmptyPair : ta.NoEmptyPair)
    (language : Set Word) :
    ta.writtenImage language = ta.relImage language := by
  have same : ∀ u v, ta.WritesFrom ta.initial u v ↔ ta.Rel u v := by
    intro u v
    constructor
    · rintro ⟨pairs, target, path, accept, reads, rfl⟩
      exact ⟨pairs, target, path, accept, reads,
        (noEmptyPair.written_eq path).symm⟩
    · rintro ⟨pairs, target, path, accept, reads, rfl⟩
      exact ⟨pairs, target, path, accept, reads, noEmptyPair.written_eq path⟩
  ext v
  exact exists_congr fun u => and_congr_right fun _ => same u v

end TransducerAutomaton

section Out

variable (a : Automaton) (ta : TransducerAutomaton)

/-- The words written along the moves from a product state. -/
inductive Out : ProductState → Word → Prop where
  | accept {state : ProductState} (accepting : Accepting a ta state) :
      Out state []
  | silent {state next : ProductState} {word : Word}
      (move : productStep a ta state .silent next) (rest : Out next word) :
      Out state word
  | letter {state next : ProductState} {branch : Branch} {v : JChar}
      {word : Word} (move : productStep a ta state branch next)
      (letter : branch.letter = some v) (rest : Out next word) :
      Out state (v :: word)

variable {a ta}

theorem Out.of_move {state : ProductState} {move : Move} {v : JChar}
    {word : Word} (isMove : IsMove a ta state move)
    (letter : move.branch.letter = some v) (rest : Out a ta move.dest word) :
    Out a ta state (v :: word) :=
  Out.letter isMove letter rest

theorem alphaMove_silent {as : Nat} {ast : Transition}
    {tast : TransducerTransition} (silent : tast.pair.v = dash) :
    alphaMove as ast tast = ⟨.silent, (ast.dest, tast.dest)⟩ := by
  rw [alphaMove, if_pos silent]

/-- A move that writes a letter leads to the destinations of both transitions. -/
theorem alphaMove_letter (as : Nat) (ast : Transition)
    {tast : TransducerTransition} (letter : tast.pair.v ≠ dash) :
    (alphaMove as ast tast).branch.letter = some tast.pair.v ∧
      (alphaMove as ast tast).dest = (ast.dest, tast.dest) := by
  rw [alphaMove, if_neg letter]
  split_ifs with same
  · exact ⟨rfl, by rw [same]⟩
  · exact ⟨rfl, rfl⟩

/-- A word of a product state is written for a word of the automaton. -/
theorem Out.exists_input {state : ProductState} {word : Word}
    (out : Out a ta state word) :
    ∃ u, a.states.Accepts state.1 u ∧ ta.WritesFrom state.2 u word := by
  induction out with
  | accept accepting =>
      exact ⟨[], Heap.accepts_nil.mpr accepting.1,
        TransducerAutomaton.WritesFrom.nil accepting.2⟩
  | silent move rest induction =>
      rcases induction with ⟨u, accepts, writes⟩
      rcases move with ⟨ast, inA, tast, inT, alpha, reads, equal⟩ |
        ⟨tast, _, _, equal⟩
      · have silent : tast.pair.v = dash := by
          by_contra letter
          rcases alphaMove_letter _ ast letter with ⟨written, _⟩
          rw [← equal] at written
          exact Option.some_ne_none _ written.symm
        rw [alphaMove_silent silent] at equal
        rcases Move.mk.inj equal with ⟨_, rfl⟩
        refine ⟨ast.min :: u, Heap.accepts_cons.mpr
          ⟨ast.dest, ⟨ast, inA, ast.reads_min, rfl⟩, accepts⟩, ?_⟩
        have longer := writes.cons inT
        rw [erase_cons_of_ne alpha, ← reads, written_silent alpha silent] at longer
        exact longer
      · exact Branch.noConfusion (congrArg Move.branch equal)
  | letter move letter rest induction =>
      rcases induction with ⟨u, accepts, writes⟩
      rcases move with ⟨ast, inA, tast, inT, alpha, reads, equal⟩ |
        ⟨tast, inT, epsilon, equal⟩
      · have speaks : tast.pair.v ≠ dash := by
          intro silent
          rw [alphaMove_silent silent] at equal
          rcases Move.mk.inj equal with ⟨rfl, _⟩
          exact Option.some_ne_none _ letter.symm
        rcases alphaMove_letter _ ast speaks with ⟨isLetter, dest⟩
        rw [← equal] at isLetter dest
        rcases dest with rfl
        rcases Option.some.inj (isLetter.symm.trans letter) with rfl
        refine ⟨ast.min :: u, Heap.accepts_cons.mpr
          ⟨ast.dest, ⟨ast, inA, ast.reads_min, rfl⟩, accepts⟩, ?_⟩
        have longer := writes.cons inT
        rw [erase_cons_of_ne alpha, ← reads, written_letter speaks] at longer
        exact longer
      · rcases Move.mk.inj equal with ⟨rfl, rfl⟩
        rcases Option.some.inj letter with rfl
        have longer := writes.cons inT
        rw [epsilon, erase_cons_dash, written_epsilon epsilon] at longer
        exact ⟨u, accepts, longer⟩

/-- What a path of the transducer writes for a word of the automaton is a word
of the product state. -/
theorem Out.of_path (single : a.SingleChars)
    {as tas target : Nat} {pairs : List TransducerPair}
    (path : Path ta.states.Step tas pairs target)
    (accept : (ta.state target).accept = true)
    (accepts : a.states.Accepts as (erase (pairs.map TransducerPair.u))) :
    Out a ta (as, tas) (written pairs) := by
  induction path generalizing as with
  | nil source => exact Out.accept ⟨Heap.accepts_nil.mp accepts, accept⟩
  | @cons source middle target pair pairs head tail induction =>
      rw [List.map_cons] at accepts
      rw [written_cons]
      by_cases alpha : pair.u = dash
      · rw [alpha, erase_cons_dash] at accepts
        rw [written_epsilon alpha]
        exact Out.of_move (Or.inr ⟨_, head, alpha, rfl⟩) rfl
          (induction accept accepts)
      · rw [erase_cons_of_ne alpha] at accepts
        rcases Heap.accepts_cons.mp accepts with ⟨next, step, rest⟩
        rcases single.step_iff.mp step with ⟨ast, inA, reads, rfl⟩
        have move : IsMove a ta (as, source) (alphaMove as ast ⟨pair, middle⟩) :=
          Or.inl ⟨ast, inA, _, head, alpha, reads, rfl⟩
        by_cases silent : pair.v = dash
        · rw [alphaMove_silent silent] at move
          rw [written_silent alpha silent]
          exact Out.silent move (induction accept rest)
        · obtain ⟨isLetter, dest⟩ :
              (alphaMove as ast ⟨pair, middle⟩).branch.letter = some pair.v ∧
                (alphaMove as ast ⟨pair, middle⟩).dest = (ast.dest, middle) :=
            alphaMove_letter as ast silent
          rw [written_letter silent]
          refine Out.of_move move isLetter ?_
          rw [dest]
          exact induction accept rest

/-- The language of the initial product state is what the transducer writes
for the words of the automaton. -/
theorem out_initial_iff_written (single : a.SingleChars) {word : Word} :
    Out a ta (a.initial, ta.initial) word ↔ word ∈ ta.writtenImage a.lang := by
  constructor
  · exact Out.exists_input
  · rintro ⟨u, accepts, pairs, target, path, accept, rfl, rfl⟩
    exact Out.of_path single path accept accepts

/-- The language of the initial product state is the relational image. -/
theorem out_initial_iff (noEmptyPair : ta.NoEmptyPair)
    (single : a.SingleChars) {word : Word} :
    Out a ta (a.initial, ta.initial) word ↔ word ∈ ta.relImage a.lang := by
  rw [out_initial_iff_written single, noEmptyPair.writtenImage_eq]

end Out

/-! ## Harmless self-loops -/

/-- Where a group reads a self-loop, nothing is lost and nothing is won by it:
the state before the loop, the state behind it and the whole group have one
language. -/
def HarmlessLoops (a : Automaton) (ta : TransducerAutomaton) : Prop :=
  ∀ group, Group (productStep a ta) (a.initial, ta.initial) group →
    ∀ state ∈ group, ∀ v after, productStep a ta state (.loop v) after →
      (∀ word, Out a ta after word → Out a ta state word) ∧
        ∀ other ∈ group, ∀ word, Out a ta other word → Out a ta after word

/-- Where one of the calls that are made reads a self-loop, nothing is lost: the
language of the call has all words of the state behind the loop.  Where the loop
is written, nothing is won by it either: that state has all words of the calls
made for the same built state. -/
def LoopsHarmless (order : HashOrder) (a : Automaton)
    (ta : TransducerAutomaton) : Prop :=
  ∀ frame move before v, Called order a ta frame →
    Makes order a ta frame move before → move.branch = .loop v →
      (∀ word, Out a ta move.dest word → Out a ta frame.state word) ∧
        (enter order before frame.node (.loop v) ≠ none →
          ∀ other, Called order a ta other → other.node = frame.node →
            ∀ word, Out a ta other.state word → Out a ta move.dest word)

/-- The loops that a trace has read do no harm to the calls that it places. -/
def EventsHarmless (a : Automaton) (ta : TransducerAutomaton) (trace : Trace) :
    Prop :=
  ∀ event ∈ trace, ∀ v, event.move.branch = .loop v →
    (∀ word, Out a ta event.move.dest word →
      Out a ta event.call.state word) ∧
      ∀ node, event.target = some node →
        ∀ call, Placed a ta trace call event.node →
          ∀ word, Out a ta call.state word → Out a ta event.move.dest word

section Language

variable {order : HashOrder} {a : Automaton} {ta : TransducerAutomaton}
variable {heap : Heap} {trace full : Trace}

theorem Shaped.move (shaped : Shaped order a ta heap trace) {event : Event}
    (member : event ∈ trace) :
    productStep a ta event.call.state event.move.branch event.move.dest :=
  mem_moves.mp (List.mem_of_getElem? (shaped.position event member))

/-- The loops of a run do no harm when those of its groups do none. -/
theorem HarmlessLoops.eventsHarmless (harmless : HarmlessLoops a ta)
    (built : Built order a ta heap trace) : EventsHarmless a ta trace := by
  intro event member v isLoop
  have shaped := built.shaped
  rcases built.exists_grouping (stateView order a ta) with ⟨group, grouping⟩
  have placed := shaped.event_placed event member
  have move := shaped.move member
  rw [isLoop] at move
  rcases harmless _ (grouping.known placed) event.call.state
    (grouping.placed placed) v event.move.dest move with ⟨back, all⟩
  exact ⟨back, fun _ _ call callPlaced =>
    all call.state (grouping.placed callPlaced)⟩

/-- The loops of a run do no harm when those of its calls do none. -/
theorem LoopsHarmless.eventsHarmless (harmless : LoopsHarmless order a ta)
    (calls : ∀ event ∈ trace, event.Made order a ta) :
    EventsHarmless a ta trace := by
  intro event member v isLoop
  rcases calls event member with
    ⟨frame, before, called, isNode, isState, makes, entered⟩
  rcases harmless frame event.move before v called makes isLoop with
    ⟨back, all⟩
  rw [isState] at back
  refine ⟨back, ?_⟩
  intro node isTarget call placed
  have written : enter order before frame.node (.loop v) ≠ none := by
    rcases entered node isTarget with ⟨next, spec⟩
    rw [isLoop, ← isNode] at spec
    rw [spec]
    exact Option.some_ne_none _
  rcases placed.exists_called calls with ⟨other, otherCalled, sameNode, same⟩
  have language := all written other otherCalled (sameNode.trans isNode.symm)
  rwa [same] at language

/-- A self-loop of a built state comes from a loop that accepts what any call of
the state accepts. -/
theorem EventsHarmless.exists_loop (harmless : EventsHarmless a ta full)
    (included : ∀ event ∈ trace, event ∈ full)
    (shaped : Shaped order a ta heap trace) {node : Nat} {v : JChar}
    (present : Transition.single v node ∈ (heap.state node).transitions) :
    ∃ event ∈ trace, event.target = some node ∧
      Placed a ta trace event.call node ∧
        productStep a ta event.call.state (.loop v) event.move.dest ∧
          (∀ word, Out a ta event.move.dest word →
            Out a ta event.call.state word) ∧
          ∀ call, Placed a ta full call node → ∀ word,
            Out a ta call.state word → Out a ta event.move.dest word := by
  rcases shaped.loop_origin present with ⟨event, member, isNode, isTarget, isLoop⟩
  have placed := shaped.event_placed event member
  have move := shaped.move member
  rw [isNode] at placed
  rw [isLoop] at move
  rcases harmless event (included event member) v isLoop with ⟨back, all⟩
  rw [isNode] at all
  exact ⟨event, member, isTarget, placed, move, back, all node isTarget⟩

/-- The word is one of the initial call, on the initial state, or of a call
that enters the state from another one. -/
def Entry (a : Automaton) (ta : TransducerAutomaton) (trace : Trace)
    (node : Nat) (word : Word) : Prop :=
  (node = 0 ∧ Out a ta (a.initial, ta.initial) word) ∨
    ∃ event ∈ trace, event.target = some node ∧ event.node ≠ node ∧
      Out a ta event.move.dest word

theorem Entry.snoc {node : Nat} {word : Word}
    (entry : Entry a ta trace node word) (last : Event) :
    Entry a ta (trace ++ [last]) node word := by
  rcases entry with initial | ⟨event, member, spec⟩
  · exact Or.inl initial
  · exact Or.inr ⟨event, List.mem_append_left _ member, spec⟩

/-- The words of a call are words of a call that enters its built state. -/
theorem EventsHarmless.exists_entry (harmless : EventsHarmless a ta full)
    (built : Built order a ta heap trace)
    (included : ∀ event ∈ trace, event ∈ full) {call : Call} {node : Nat}
    (placed : Placed a ta trace call node) {word : Word}
    (out : Out a ta call.state word) : Entry a ta trace node word := by
  induction built generalizing call node word with
  | start =>
      rcases placed with ⟨rfl, rfl⟩ | ⟨event, member, _⟩
      · exact Or.inl ⟨rfl, out⟩
      · exact absurd member List.not_mem_nil
  | cut _ _ _ _ induction =>
      rcases placed_append_iff.mp placed with before | ⟨_, isTarget⟩
      · exact (induction
          (fun event member => included event (List.mem_append_left _ member))
          before out).snoc _
      · exact absurd isTarget (Option.some_ne_none _).symm
  | @enter heap next trace parent parentNode index target move built
      parentPlaced position entered induction =>
      have earlier : ∀ event ∈ trace, event ∈ full :=
        fun event member => included event (List.mem_append_left _ member)
      have last := included _ Shaped.mem_snoc_self
      rcases placed_append_iff.mp placed with before | ⟨rfl, isTarget⟩
      · exact (induction earlier before out).snoc _
      rcases Option.some.inj isTarget with rfl
      have step : productStep a ta parent.state move.branch move.dest :=
        mem_moves.mp (List.mem_of_getElem? position)
      by_cases stays : parentNode = target
      · subst stays
        apply Entry.snoc
        rcases (enter_some (built.shaped.placed_lt parentPlaced)
            entered).target_spec with
          ⟨_, branch | ⟨v, branch⟩⟩ | ⟨new, _⟩ |
            ⟨v, branch, transition, inHeap, reads, dest⟩
        · rw [branch] at step
          exact induction earlier parentPlaced (Out.silent step out)
        · exact induction earlier parentPlaced
            ((harmless _ last v branch).1 word out)
        · exact absurd new
            (Nat.ne_of_lt (built.shaped.placed_lt parentPlaced))
        · rcases built.shaped.origin inHeap with ⟨_, _, _, _, _, single⟩
          rw [reads, dest] at single
          rcases harmless.exists_loop earlier built.shaped (single ▸ inHeap) with
            ⟨event, _, _, eventPlaced, eventMove, back, all⟩
          -- The new call shares the state with the loop, which has its words.
          have shared := placed.mono included
          exact induction earlier eventPlaced (back word (all _ shared word out))
      · exact Or.inr ⟨_, List.mem_append_right _ (List.mem_singleton_self _),
          rfl, stays, out⟩

/-- A call that enters a state from another one leaves a transition behind. -/
theorem Shaped.exists_written (shaped : Shaped order a ta heap trace)
    {event : Event} (inTrace : event ∈ trace) {node : Nat}
    (isTarget : event.target = some node) (enters : event.node ≠ node) :
    ∃ w, event.move.branch.letter = some w ∧
      Transition.single w node ∈ (heap.state event.node).transitions := by
  have speaks : ∃ w, event.move.branch.letter = some w := by
    cases branch : event.move.branch with
    | silent =>
        have same := shaped.silent event inTrace branch
        rw [isTarget] at same
        exact absurd (Option.some.inj same).symm enters
    | loop w => exact ⟨w, rfl⟩
    | emit w => exact ⟨w, rfl⟩
    | epsilon w => exact ⟨w, rfl⟩
  rcases speaks with ⟨w, isLetter⟩
  exact ⟨w, isLetter, shaped.written event inTrace _ isTarget w isLetter⟩

/-- Every word accepted from a built state is a word of one of its calls. -/
theorem EventsHarmless.sound (harmless : EventsHarmless a ta trace)
    (built : Built order a ta heap trace) {node : Nat} {word : Word}
    (accepts : heap.Accepts node word) :
    ∃ call, Placed a ta trace call node ∧ Out a ta call.state word := by
  have shaped := built.shaped
  induction word generalizing node with
  | nil =>
      rcases (shaped.accept_iff node).mp (Heap.accepts_nil.mp accepts) with
        ⟨call, placed, accepting⟩
      exact ⟨call, placed, Out.accept accepting⟩
  | cons v word induction =>
      rcases Heap.accepts_cons.mp accepts with
        ⟨middle, ⟨transition, member, reads, rfl⟩, rest⟩
      rcases induction rest with ⟨call, placed, out⟩
      rcases shaped.origin member with ⟨_, _, _, _, _, single⟩
      have letter : v = transition.min := by
        rw [single] at reads
        simpa using reads
      subst letter
      rw [single] at member
      by_cases stays : transition.dest = node
      · rw [stays] at member placed
        rcases harmless.exists_loop (fun _ => id) shaped member with
          ⟨event, _, _, eventPlaced, move, _, all⟩
        exact ⟨event.call, eventPlaced,
          Out.letter move rfl (all _ placed word out)⟩
      · rcases harmless.exists_entry built (fun _ => id) placed out with
          ⟨isRoot, _⟩ | ⟨event, inTrace, isTarget, enters, eventOut⟩
        · rw [isRoot] at member stays
          exact absurd (shaped.root member).symm stays
        · rcases shaped.exists_written inTrace isTarget enters with
            ⟨w, isLetter, written⟩
          rcases shaped.parent written member (Ne.symm enters) stays with
            ⟨isNode, rfl⟩
          refine ⟨event.call, ?_,
            Out.letter (shaped.move inTrace) isLetter eventOut⟩
          rw [← isNode]
          exact shaped.event_placed event inTrace

/-- A call that made all its moves stays on its state as long as they are
silent; then it accepts, or a letter comes. -/
theorem Shaped.exists_loud (shaped : Shaped order a ta heap trace)
    (finished : ∀ call node, Placed a ta trace call node →
      AllMade order a ta trace call node)
    {call : Call} {node : Nat} (placed : Placed a ta trace call node)
    {word : Word} (out : Out a ta call.state word) :
    ∃ last, Placed a ta trace last node ∧
      (word = [] ∧ Accepting a ta last.state ∨
        ∃ v rest branch next, word = v :: rest ∧
          productStep a ta last.state branch next ∧
            branch.letter = some v ∧ Out a ta next rest) := by
  generalize isState : call.state = state at out
  induction out generalizing call with
  | accept accepting =>
      exact ⟨call, placed, Or.inl ⟨rfl, isState ▸ accepting⟩⟩
  | silent move rest induction =>
      rw [← isState] at move
      rcases List.mem_iff_getElem?.mp (mem_moves.mpr move) with ⟨index, position⟩
      rcases finished call node placed _ _ position with ⟨target, member⟩
      have stays := shaped.silent _ member rfl
      exact induction (Or.inr ⟨_, member, rfl, stays⟩) rfl
  | letter move letter rest =>
      exact ⟨call, placed,
        Or.inr ⟨_, _, _, _, rfl, isState ▸ move, letter, rest⟩⟩

/-- Every word of a call is accepted from its built state. -/
theorem EventsHarmless.complete (harmless : EventsHarmless a ta trace)
    (built : Built order a ta heap trace)
    (finished : ∀ call node, Placed a ta trace call node →
      AllMade order a ta trace call node)
    {call : Call} {node : Nat} (placed : Placed a ta trace call node)
    {word : Word} (out : Out a ta call.state word) :
    heap.Accepts node word := by
  have shaped := built.shaped
  induction word generalizing call node with
  | nil =>
      rcases shaped.exists_loud finished placed out with
        ⟨last, lastPlaced, ⟨_, accepting⟩ | ⟨_, _, _, _, empty, _⟩⟩
      · exact Heap.accepts_nil.mpr
          ((shaped.accept_iff node).mpr ⟨last, lastPlaced, accepting⟩)
      · exact absurd empty.symm (List.cons_ne_nil _ _)
  | cons v word induction =>
      rcases shaped.exists_loud finished placed out with
        ⟨last, lastPlaced, ⟨empty, _⟩ |
          ⟨w, rest, branch, next, equal, move, letter, tail⟩⟩
      · exact absurd empty (List.cons_ne_nil _ _)
      rcases List.cons.inj equal with ⟨rfl, rfl⟩
      rcases List.mem_iff_getElem?.mp (mem_moves.mpr move) with ⟨index, position⟩
      rcases finished last node lastPlaced _ _ position with ⟨target, member⟩
      cases target with
      | some target =>
          have written := shaped.written _ member target rfl v letter
          exact Heap.accepts_cons.mpr ⟨target, ⟨_, written, by simp, rfl⟩,
            induction (Or.inr ⟨_, member, rfl, rfl⟩) tail⟩
      | none =>
          -- The move was cut: an earlier loop accepts at least as much.
          rcases shaped.uncut _ member rfl with ⟨u, isLoop⟩
          have same : branch = .loop u := isLoop
          rw [same] at letter move
          rcases Option.some.inj letter with rfl
          have present := shaped.loop _ member u isLoop
          rcases harmless.exists_loop (fun _ => id) shaped present with
            ⟨event, inTrace, isTarget, _, _, _, all⟩
          have back := (harmless _ member u isLoop).1 _ tail
          exact Heap.accepts_cons.mpr ⟨node, ⟨_, present, by simp, rfl⟩,
            induction (Or.inr ⟨event, inTrace, rfl, isTarget⟩)
              (all last lastPlaced _ back)⟩

/-- With harmless self-loops the heap of a finished trace accepts the language
of the initial product state. -/
theorem EventsHarmless.accepts_iff (harmless : EventsHarmless a ta trace)
    (built : Built order a ta heap trace)
    (finished : ∀ call node, Placed a ta trace call node →
      AllMade order a ta trace call node) {word : Word} :
    heap.Accepts 0 word ↔ Out a ta (a.initial, ta.initial) word := by
  constructor
  · intro accepts
    rcases harmless.sound built accepts with ⟨call, placed, out⟩
    rcases harmless.exists_entry built (fun _ => id) placed out with
      ⟨_, initialOut⟩ | ⟨event, member, isTarget, enters, _⟩
    · exact initialOut
    · -- Only the initial call enters the initial state.
      have shaped := built.shaped
      rcases shaped.exists_written member isTarget enters with ⟨w, _, written⟩
      exact absurd (shaped.root written) enters
  · intro out
    have placed : Placed a ta trace (Call.initial a ta) 0 :=
      Or.inl ⟨rfl, rfl⟩
    exact harmless.complete built finished placed out

/-- The built automaton accepts the language of the initial product state when
the self-loops of the groups do no harm. -/
theorem HarmlessLoops.mem_builtImage (harmless : HarmlessLoops a ta)
    {fuel : Nat} {states : Heap}
    (returns : imageStates order a ta fuel = some states) {word : Word} :
    word ∈ (builtImage returns).lang ↔
      Out a ta (a.initial, ta.initial) word := by
  rcases imageStates_built returns with ⟨trace, built, finished, _⟩
  exact (harmless.eventsHarmless built).accepts_iff built finished

/-- The same when the self-loops that the calls read do no harm. -/
theorem LoopsHarmless.mem_builtImage (harmless : LoopsHarmless order a ta)
    {fuel : Nat} {states : Heap}
    (returns : imageStates order a ta fuel = some states) {word : Word} :
    word ∈ (builtImage returns).lang ↔
      Out a ta (a.initial, ta.initial) word := by
  rcases imageStates_built returns with ⟨trace, built, finished, calls⟩
  exact (harmless.eventsHarmless calls).accepts_iff built finished

/-- With harmless self-loops the built automaton accepts the relational image. -/
theorem builtImage_lang {fuel : Nat} {states : Heap}
    (returns : imageStates order a ta fuel = some states)
    (noEmptyPair : ta.NoEmptyPair) (single : a.SingleChars)
    (harmless : HarmlessLoops a ta) :
    (builtImage returns).lang = ta.relImage a.lang := by
  ext word
  rw [harmless.mem_builtImage returns]
  exact out_initial_iff noEmptyPair single

end Language

/-! ## Two transducers over one letter -/

section OneLetter

/-- One accepting state with a self-loop: `c*`. -/
def starAutomaton (c : JChar) : Automaton where
  states := [⟨true, [Transition.single c 0]⟩]
  initial := 0
  deterministic := true
  initial_lt := Nat.one_pos
  closed := by simp [Heap.Closed, Transition.single]

theorem starAutomaton_step_iff {c d : JChar} {source target : Nat} :
    (starAutomaton c).states.Step source d target ↔
      source = 0 ∧ d = c ∧ target = 0 := by
  rcases Nat.eq_zero_or_pos source with rfl | positive
  · constructor
    · rintro ⟨transition, member, reads, rfl⟩
      rcases List.mem_singleton.mp member with rfl
      exact ⟨rfl, (Transition.single_reads _ _ _).mp reads, rfl⟩
    · rintro ⟨_, rfl, rfl⟩
      exact ⟨Transition.single d 0, List.mem_cons_self, by simp, rfl⟩
  · have empty : (starAutomaton c).states.state source = State.new :=
      Heap.state_of_length_le positive
    simp [Heap.Step, empty, State.new, positive.ne']

/-- The identity on `c*`. -/
def copyTransducer (c : JChar) : TransducerAutomaton where
  states := [⟨true, [⟨⟨c, c⟩, 0⟩]⟩]
  initial := 0
  initial_lt := Nat.one_pos
  closed := by simp [TransducerHeap.Closed]

/-- The relation `{(cc, cc)}`. -/
def twiceTransducer (c : JChar) : TransducerAutomaton where
  states := [⟨false, [⟨⟨c, c⟩, 1⟩]⟩, ⟨false, [⟨⟨c, c⟩, 2⟩]⟩, ⟨true, []⟩]
  initial := 0
  initial_lt := Nat.succ_pos 2
  closed := by simp [TransducerHeap.Closed]

/-- Over `c*` the identity only loops. -/
theorem copyTransducer_move {c : JChar} (letter : c ≠ dash) {move : Move}
    (isMove : IsMove (starAutomaton c) (copyTransducer c) (0, 0) move) :
    move = ⟨.loop c, (0, 0)⟩ := by
  rcases isMove with ⟨ast, inA, tast, inT, _, _, rfl⟩ |
    ⟨tast, inT, epsilon, _⟩
  · rcases List.mem_singleton.mp inA with rfl
    rcases List.mem_singleton.mp inT with rfl
    rw [alphaMove, if_neg letter]
    exact if_pos rfl
  · rcases List.mem_singleton.mp inT with rfl
    exact absurd epsilon letter

theorem copyTransducer_harmless {c : JChar} (letter : c ≠ dash) :
    HarmlessLoops (starAutomaton c) (copyTransducer c) := by
  have stays : ∀ state branch next, state = (0, 0) →
      productStep (starAutomaton c) (copyTransducer c) state branch next →
        next = (0, 0) := by
    rintro state branch next rfl move
    exact (Move.mk.inj (copyTransducer_move letter move)).2
  intro group known state member v after move
  have only := known.invariant (fun state => state = (0, 0)) stays rfl
  have isState := only state member
  have isAfter := stays _ _ _ isState move
  refine ⟨fun word => ?_, fun other inGroup word => ?_⟩
  · rw [isState, isAfter]
    exact id
  · rw [only other inGroup, isAfter]
    exact id

end OneLetter

/-! ## The image is the relational image -/

/--
On automata of single letters and machines without harmful self-loops `image`
builds exactly the image, for every order of the hash sets.
-/
theorem imageRec_accepts_iff_of_harmlessLoops {order : HashOrder}
    {a : Automaton} {ta : TransducerAutomaton} {fuel : Nat} {states : Heap}
    (noEmptyPair : ta.NoEmptyPair) (single : a.SingleChars)
    (harmless : HarmlessLoops a ta)
    (returns : imageRec order a ta fuel newAutomaton 0 a.initial ta.initial =
      some states)
    (v : Word) :
    states.Accepts 0 v ↔ ∃ u ∈ a.lang, ta.Rel u v := by
  have same := builtImage_lang returns noEmptyPair single harmless
  exact Set.ext_iff.mp same v

/--
The identity on `a*` has a self-loop, which does no harm: the one state that is
built accepts `aa` as the image does.
-/
theorem imageRec_accepts_iff_copy :
    Heap.Accepts [⟨true, [Transition.single 97 0]⟩] 0 [97, 97] ↔
      ∃ u ∈ (starAutomaton 97).lang, (copyTransducer 97).Rel u [97, 97] :=
  imageRec_accepts_iff_of_harmlessLoops (by decide) (by decide)
    (copyTransducer_harmless (by decide))
    (show imageRec .insertion _ _ 2 newAutomaton 0 0 0 = _ from rfl) [97, 97]

/--
On `a*` and the relation of the single pair `(aa, aa)` the second self-loop is
cut.  The built automaton accepts nothing.
-/
theorem imageRec_not_exact :
    ∃ states,
      imageRec .insertion (starAutomaton 97) (twiceTransducer 97) 3
          newAutomaton 0 (starAutomaton 97).initial
          (twiceTransducer 97).initial = some states ∧
        (twiceTransducer 97).NoEmptyPair ∧ (starAutomaton 97).SingleChars ∧
          ¬ ∀ v, states.Accepts 0 v ↔
            ∃ u ∈ (starAutomaton 97).lang, (twiceTransducer 97).Rel u v := by
  refine ⟨[⟨false, [Transition.single 97 0]⟩], rfl, by decide, by decide, ?_⟩
  intro exact
  have related : ∃ u ∈ (starAutomaton 97).lang,
      (twiceTransducer 97).Rel u [97, 97] := by
    refine ⟨[97, 97], ⟨0, ?_, rfl⟩,
      [⟨97, 97⟩, ⟨97, 97⟩], 2, ?_, rfl, rfl, rfl⟩
    · exact Path.cons ⟨_, List.mem_cons_self, by simp, rfl⟩
        (Path.single ⟨_, List.mem_cons_self, by simp, rfl⟩)
    · have head : (twiceTransducer 97).states.Step 0 ⟨97, 97⟩ 1 :=
        List.mem_cons_self
      have tail : (twiceTransducer 97).states.Step 1 ⟨97, 97⟩ 2 :=
        List.mem_cons_self
      exact Path.cons head (Path.single tail)
  rcases (exact [97, 97]).mpr related with ⟨target, _, accept⟩
  rcases Nat.eq_zero_or_pos target with rfl | positive
  · exact Bool.false_ne_true accept
  · rw [Heap.state_of_length_le (show 1 ≤ target from positive)] at accept
    exact Bool.false_ne_true accept

end SafetyGames.Transducer
