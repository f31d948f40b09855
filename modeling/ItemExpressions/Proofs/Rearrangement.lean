import ItemExpressions.Proofs.Independence

/-!
Rearranged runs. Where independent steps of a run change places, its answers change places with
them and the tree in the end is the same. So a tree, and all that is gathered from it, depends on
what was wanted of each node, in the order in which it was wanted there, and on the order of the
declarations and builds; a mark keeps its place among these, for it is refused before the node is
built.
-/

namespace ItemExpressions

namespace Node

/-- A run together with the answers of its steps. -/
def record? : List (Route × Step) → Node → Option (Node × List (Except Error Unit))
  | [], tree => some (tree, [])
  | (place, step) :: rest, tree =>
      (tree.performAt? place step).bind fun (next, answer) =>
        (record? rest next).map fun (after, answers) => (after, answer :: answers)

theorem record_cons (taken : Route × Step) (rest : List (Route × Step)) (tree after : Node)
    (answers : List (Except Error Unit)) :
    tree.record? (taken :: rest) = some (after, answers) ↔ ∃ next answer later,
      tree.performAt? taken.1 taken.2 = some (next, answer) ∧
        next.record? rest = some (after, later) ∧ answers = answer :: later := by
  constructor
  · intro done
    obtain ⟨⟨next, answer⟩, performed, recorded⟩ := Option.bind_eq_some_iff.mp done
    obtain ⟨⟨_, later⟩, rest, same⟩ := Option.map_eq_some_iff.mp recorded
    cases same
    exact ⟨next, answer, later, performed, rest, rfl⟩
  · rintro ⟨next, answer, later, performed, recorded, rfl⟩
    simp [record?, performed, recorded]

theorem record_run (steps : List (Route × Step)) (tree : Node) :
    (tree.record? steps).map Prod.fst = tree.run? steps := by
  induction steps generalizing tree with
  | nil => rfl
  | cons first rest ih =>
      rw [record?, run?, Option.map_bind]
      congr 1
      funext result
      rw [Function.comp_apply, Option.map_map, ← ih]
      rfl

theorem record_swap (before later : List (Route × Step)) (first second : Route × Step)
    (independent : Independent first second) (tree after : Node) (sound : tree.Everywhere Sound)
    (answers : List (Except Error Unit))
    (done : tree.record? (before ++ first :: second :: later) = some (after, answers)) :
    ∃ earlier one other rest, answers = earlier ++ one :: other :: rest ∧
      earlier.length = before.length ∧
      tree.record? (before ++ second :: first :: later) =
        some (after, earlier ++ other :: one :: rest) := by
  induction before generalizing tree answers with
  | nil =>
      obtain ⟨middle, one, _, performed, recorded, rfl⟩ := (record_cons _ _ _ _ _).mp done
      obtain ⟨next, other, rest, then_, followed, rfl⟩ := (record_cons _ _ _ _ _).mp recorded
      obtain ⟨between, taken, final⟩ := performAt_swap sound independent performed then_
      refine ⟨[], one, other, rest, rfl, rfl, ?_⟩
      exact (record_cons _ _ _ _ _).mpr ⟨between, other, _, taken,
        (record_cons _ _ _ _ _).mpr ⟨next, one, _, final, followed, rfl⟩, rfl⟩
  | cons taken before ih =>
      obtain ⟨next, answer, answered, performed, recorded, rfl⟩ := (record_cons _ _ _ _ _).mp done
      have nextSound := (step_sound tree next taken.1 taken.2 answer sound performed).1
      obtain ⟨earlier, one, other, rest, rfl, length, swapped⟩ :=
        ih next nextSound answered recorded
      refine ⟨answer :: earlier, one, other, rest, rfl, congrArg (· + 1) length, ?_⟩
      exact (record_cons _ _ _ _ _).mpr ⟨next, answer, _, performed, swapped, rfl⟩

end Node

/-! ## Rearrangements -/

/-- One run comes from the other when independent steps next to each other change places. -/
inductive Rearranged : List (Route × Step) → List (Route × Step) → Prop where
  | refl (steps : List (Route × Step)) : Rearranged steps steps
  | swap (before later : List (Route × Step)) (first second : Route × Step)
      (independent : Independent first second) (finish : List (Route × Step))
      (rest : Rearranged (before ++ second :: first :: later) finish) :
      Rearranged (before ++ first :: second :: later) finish

theorem Rearranged.trans {start middle finish : List (Route × Step)}
    (first : Rearranged start middle) (second : Rearranged middle finish) :
    Rearranged start finish := by
  induction first with
  | refl => exact second
  | swap before later first other independent _ rest ih =>
      exact .swap before later first other independent _ (ih second)

theorem Rearranged.cons (taken : Route × Step) {start finish : List (Route × Step)}
    (rearranged : Rearranged start finish) : Rearranged (taken :: start) (taken :: finish) := by
  induction rearranged with
  | refl steps => exact .refl _
  | swap before later first other independent _ rest ih =>
      exact .swap (taken :: before) later first other independent _ ih

/-- A step moves to the front, past steps that it is independent of. -/
theorem Rearranged.forward (front later : List (Route × Step)) (step : Route × Step)
    (independent : ∀ other ∈ front, Independent other step) :
    Rearranged (front ++ step :: later) (step :: front ++ later) := by
  induction front with
  | nil => exact .refl _
  | cons first rest ih =>
      obtain ⟨here, others⟩ := List.forall_mem_cons.mp independent
      have moved := (ih others).cons first
      exact moved.trans (.swap [] (rest ++ later) first step here _ (.refl _))

theorem Node.run_rearranged (tree after : Node) (sound : tree.Everywhere Sound)
    (start finish : List (Route × Step)) (rearranged : Rearranged start finish)
    (done : tree.run? start = some after) : tree.run? finish = some after := by
  induction rearranged with
  | refl steps => exact done
  | swap before later first second independent _ rest ih =>
      rw [← record_run] at done
      obtain ⟨⟨_, answers⟩, recorded, rfl⟩ := Option.map_eq_some_iff.mp done
      obtain ⟨_, _, _, _, _, _, swapped⟩ :=
        record_swap before later first second independent tree _ sound answers recorded
      refine ih ?_
      rw [← record_run, swapped]
      rfl

/-! ## Sequences of a node -/

/-- The step has a say in what is wanted of the node at a route: it wants something there, or it is
a declaration, which can make the node anew. -/
def concerns (route : Route) (taken : Route × Step) : Bool :=
  taken.2.declares || (taken.2.wants && taken.1 == route)

/-- The step has a say in what is built, or it is a mark of the node at a route, which asks for
it. -/
def frames (route : Route) (taken : Route × Step) : Bool :=
  taken.2.declares || taken.2.builds ||
    (taken.2.wants && !taken.2.attaches && taken.1 == route)

/-- In both runs each node has the same sequence of steps that concern it, and its marks have the
same place among the declarations and builds. -/
def SameSequences (first second : List (Route × Step)) : Prop :=
  ∀ route, first.filter (concerns route) = second.filter (concerns route) ∧
    first.filter (frames route) = second.filter (frames route)

/-- Steps that no sequence has in common are independent. -/
theorem independent_of_apart (first second : Route × Step)
    (apart : ∀ route, (concerns route second = true → concerns route first = false) ∧
      (frames route second = true → frames route first = false)) : Independent first second := by
  obtain ⟨place, step⟩ := first
  obtain ⟨there, taken⟩ := second
  have here := apart place
  have away := apart there
  -- All that counts are the kinds of the two steps and whether they are at the same node.
  by_cases same : place = there <;> cases step <;> cases taken <;>
    simp_all [Independent, concerns, frames, Step.declares, Step.builds, Step.wants, Step.attaches]

/-- What a sequence begins with stands first in its part of the other run too. -/
theorem filter_peel {α : Type} (part : α → Bool) (step : α) (rest front later : List α)
    (absent : step ∉ front)
    (same : (step :: rest).filter part = (front ++ step :: later).filter part) :
    (part step = true → ∀ other ∈ front, part other = false) ∧
      rest.filter part = (front ++ later).filter part := by
  rw [List.filter_append] at same ⊢
  cases held : part step with
  | false =>
      have out : ¬ part step = true := Bool.eq_false_iff.mp held
      rw [List.filter_cons_of_neg out, List.filter_cons_of_neg out] at same
      exact ⟨fun impossible => absurd impossible Bool.false_ne_true, same⟩
  | true =>
      rw [List.filter_cons_of_pos held, List.filter_cons_of_pos held] at same
      -- Anything of the part in front would begin the sequence in its stead.
      have none : front.filter part = [] := by
        cases found : front.filter part with
        | nil => rfl
        | cons first others =>
            rw [found] at same
            have inside : first ∈ front.filter part := found ▸ List.mem_cons_self
            rw [(List.cons.inj same).1] at absent
            exact absurd (List.mem_filter.mp inside).1 absent
      rw [none] at same ⊢
      exact ⟨fun _ other member => by simpa using List.filter_eq_nil_iff.mp none other member,
        (List.cons.inj same).2⟩

theorem SameSequences.symm {first second : List (Route × Step)}
    (same : SameSequences first second) : SameSequences second first :=
  fun route => ⟨(same route).1.symm, (same route).2.symm⟩

/-- Each step has its part in some sequence, so both runs have the same steps. -/
theorem SameSequences.mem {first second : List (Route × Step)} (same : SameSequences first second)
    (taken : Route × Step) (member : taken ∈ first) : taken ∈ second := by
  have part : concerns taken.1 taken = true ∨ frames taken.1 taken = true := by
    obtain ⟨place, step⟩ := taken
    cases step <;> simp [concerns, frames, Step.declares, Step.builds, Step.wants]
  rcases part with part | part
  · have kept := (same taken.1).1 ▸ List.mem_filter.mpr ⟨member, part⟩
    exact (List.mem_filter.mp kept).1
  · have kept := (same taken.1).2 ▸ List.mem_filter.mpr ⟨member, part⟩
    exact (List.mem_filter.mp kept).1

/-- A run can be put in the order of any run that has the same sequences, one step after another. -/
theorem rearranged_of_same (first second : List (Route × Step))
    (same : SameSequences first second) : Rearranged second first := by
  induction first generalizing second with
  | nil =>
      have empty : second = [] := List.eq_nil_iff_forall_not_mem.mpr fun step member =>
        List.not_mem_nil (same.symm.mem step member)
      exact empty ▸ .refl _
  | cons step rest ih =>
      have member := same.mem step List.mem_cons_self
      obtain ⟨front, later, rfl, absent⟩ := List.eq_append_cons_of_mem member
      have peeled (route : Route) := And.intro
        (filter_peel (concerns route) step rest front later absent (same route).1)
        (filter_peel (frames route) step rest front later absent (same route).2)
      have moved := Rearranged.forward front later step fun other between =>
        independent_of_apart other step fun route =>
          ⟨fun concerned => (peeled route).1.1 concerned other between,
            fun framed => (peeled route).2.1 framed other between⟩
      have others := ih (front ++ later) fun route => ⟨(peeled route).1.2, (peeled route).2.2⟩
      exact moved.trans (others.cons step)

namespace Node

/-- Independent steps can change places anywhere in a run, and their answers change places with
them; so a run is decided by the sequences of steps of the single nodes. -/
theorem order_of_independent_steps (tree : Node) (reachable : tree.Reachable) :
    (∀ before later first second after answers, Independent first second →
      tree.record? (before ++ first :: second :: later) = some (after, answers) →
      ∃ earlier one other rest, answers = earlier ++ one :: other :: rest ∧
        earlier.length = before.length ∧
        tree.record? (before ++ second :: first :: later) =
          some (after, earlier ++ other :: one :: rest)) ∧
    ∀ first second, SameSequences first second → tree.run? first = tree.run? second := by
  have sound := reachable_sound tree reachable
  refine ⟨fun before later first second after answers independent done =>
    record_swap before later first second independent tree after sound answers done,
    fun first second same => ?_⟩
  exact Option.ext fun after => ⟨
    run_rearranged tree after sound first second (rearranged_of_same second first same.symm),
    run_rearranged tree after sound second first (rearranged_of_same first second same)⟩

/-- The number of the person's bank account is built elsewhere. -/
def numberElsewhere : List (Route × Step) :=
  [([.child 1], .declare [10, 2]), ([.child 2, .child 0], .build .asStored ⟨"old"⟩)]

/-- The bank is to be removed. -/
def bankRemoval : Route × Step := ([.child 2], .setUpdate .remove .empty)

/-- The whole person is built, which ends half way in the bank. -/
def personBuild : Route × Step := ([], .build .asStored .root)

theorem person_removal_swaps : Independent bankRemoval personBuild ∧
    SameSequences (numberElsewhere ++ [bankRemoval, personBuild])
      (numberElsewhere ++ [personBuild, bankRemoval]) ∧
    Shape.person.fresh.run? (numberElsewhere ++ [bankRemoval, personBuild]) =
      Shape.person.fresh.run? (numberElsewhere ++ [personBuild, bankRemoval]) ∧
    ∃ after, Shape.person.fresh.record? (numberElsewhere ++ [bankRemoval, personBuild]) =
        some (after, [.ok (), .ok (), .ok (), .error (.alreadyBuilt ⟨"old.number"⟩)]) ∧
      Shape.person.fresh.record? (numberElsewhere ++ [personBuild, bankRemoval]) =
        some (after, [.ok (), .ok (), .error (.alreadyBuilt ⟨"old.number"⟩), .ok ()]) := by
  have independent : Independent bankRemoval personBuild := .inr (.inl ⟨rfl, rfl⟩)
  have same : SameSequences (numberElsewhere ++ [bankRemoval, personBuild])
      (numberElsewhere ++ [personBuild, bankRemoval]) := by
    intro route
    constructor <;> cases held : ([.child 2] : Route) == route <;>
      simp [numberElsewhere, bankRemoval, personBuild, concerns, frames, Step.declares, Step.builds,
        Step.wants, Step.attaches, held]
  have order := order_of_independent_steps Shape.person.fresh (.fresh _ Shape.person.fresh_declared)
  obtain ⟨earlier, one, other, rest, answers, length, swapped⟩ :=
    order.1 numberElsewhere [] bankRemoval personBuild _ _ independent rfl
  have parts : [.ok (), .ok ()] ++ [.ok (), .error (.alreadyBuilt ⟨"old.number"⟩)] =
      earlier ++ one :: other :: rest := answers
  obtain ⟨rfl, tail⟩ := List.append_inj parts length.symm
  cases tail
  exact ⟨independent, same, order.2 _ _ same, _, rfl, swapped⟩

end Node

end ItemExpressions
