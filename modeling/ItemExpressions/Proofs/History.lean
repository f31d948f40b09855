import ItemExpressions.Proofs.Frame

/-!
Histories. A history of a tree says how the tree was declared and what steps it took since. What is
wanted of a node has come from the steps in its place alone, in their order and since the node was
last made anew; whatever was done elsewhere, and whatever failed, has no part in it.
-/

namespace ItemExpressions

namespace Node

inductive History : Node → Type where
  | declared (tree : Node) (fresh : tree.Fresh) : tree.History
  | stepped {tree after : Node} (earlier : tree.History) (place : Route) (step : Step)
      (answer : Except Error Unit) (done : tree.performAt? place step = some (after, answer)) :
      after.History

namespace History

theorem reachable {tree : Node} (history : tree.History) : tree.Reachable := by
  induction history with
  | declared tree fresh => exact .fresh tree fresh
  | stepped earlier place step answer done ih => exact .step _ _ place step answer ih done

/-- Every tree that can come about has a history, so nothing is lost by asking for one. -/
theorem of_reachable (tree : Node) (reachable : tree.Reachable) : Nonempty tree.History := by
  induction reachable with
  | fresh tree fresh => exact ⟨.declared tree fresh⟩
  | step tree after route step answer _ done ih =>
      obtain ⟨earlier⟩ := ih
      exact ⟨.stepped earlier route step answer done⟩

/-- A run goes on with a history. -/
def follow {tree after : Node} (history : tree.History) :
    (steps : List (Route × Step)) → tree.run? steps = some after → after.History
  | [], done => Option.some.inj done ▸ history
  | (place, step) :: rest, done =>
      match found : tree.performAt? place step with
      | none => by simp [run?, found] at done
      | some (next, answer) =>
          (history.stepped place step answer found).follow rest (by simpa [run?, found] using done)

/-- What the steps in a place brought, the first first, since what stands there was made. -/
def brought {β : Type} (carry : Step → Option β) (route : Route) :
    {tree : Node} → tree.History → List β
  | _, .declared _ _ => []
  | _, .stepped earlier place step answer _ =>
      if step.renews answer place route then []
      else if route = place then earlier.brought carry route ++ (carry step).toList
      else earlier.brought carry route

end History

/-- What stands in a place after a step was made by it, or has come from what stood there before. -/
theorem performAt_since {tree after : Node} {place : Route} {step : Step}
    {answer : Except Error Unit} (sound : tree.Everywhere Sound)
    (done : tree.performAt? place step = some (after, answer)) (route : Route) (node : Node)
    (stands : after.get? route = some node) :
    step.renews answer place route = true ∧ node.Fresh ∨
      step.renews answer place route = false ∧ ∃ before, tree.get? route = some before ∧
        (route = place ∧ step.perform before = some (node, answer) ∨
          route ≠ place ∧ before.Alike node) := by
  have origin := performAt_origin place done route node stands
  cases renewed : step.renews answer place route with
  | true => exact .inl ⟨rfl, origin.fresh sound renewed⟩
  | false =>
      refine .inr ⟨rfl, ?_⟩
      cases origin with
      | made indices index inner _ _ declares accepted member through _ _ _ =>
          rw [(step.renews_iff answer place route).mpr
            ⟨indices, index, inner, declares, accepted, member, through⟩] at renewed
          cases renewed
      | changed before here stood performed =>
          exact ⟨before, here ▸ stood, .inl ⟨here, performed⟩⟩
      | left before away _ stood alike => exact ⟨before, stood, .inr ⟨away, alike⟩⟩

/-- Something about nodes that steps in their place add to: it begins with `start` on declared
nodes, and `absorb` takes in what a step carries. -/
structure Accrues {γ β : Type} (seen : Node → γ) (start : γ) (carry : Step → Option β)
    (absorb : γ → β → γ) : Prop where
  fresh : ∀ node, node.Fresh → seen node = start
  alike : ∀ before after, before.Alike after → seen after = seen before
  performed : ∀ step node after answer, step.perform node = some (after, answer) →
    seen after = (carry step).toList.foldl absorb (seen node)

theorem Accrues.exact {γ β : Type} {seen : Node → γ} {start : γ} {carry : Step → Option β}
    {absorb : γ → β → γ} (accrues : Accrues seen start carry absorb) {tree : Node}
    (history : tree.History) (route : Route) (node : Node) (found : tree.get? route = some node) :
    seen node = (history.brought carry route).foldl absorb start := by
  induction history generalizing node with
  | declared tree fresh => exact accrues.fresh node (fresh.at_route route node found)
  | stepped earlier place step answer done ih =>
      have sound := reachable_sound _ earlier.reachable
      rw [History.brought]
      rcases performAt_since sound done route node found with
        ⟨renewed, fresh⟩ | ⟨kept, before, stood, ⟨here, performed⟩ | ⟨away, alike⟩⟩
      · rw [if_pos renewed]
        exact accrues.fresh node fresh
      · rw [if_neg (Bool.eq_false_iff.mp kept), if_pos here, List.foldl_append, ← ih before stood]
        exact accrues.performed step before node answer performed
      · rw [if_neg (Bool.eq_false_iff.mp kept), if_neg away, ← ih before stood]
        exact accrues.alike before node alike

/-! ## Conditions and key conditions -/

end Node

/-- What was gathered so far, joined with one condition more. -/
def Condition.join (gathered : Option Condition) (next : Condition) : Option Condition :=
  some (.andThen gathered next)

def KeyCondition.join (gathered : Option KeyCondition) (next : KeyCondition) :
    Option KeyCondition :=
  some (.andThen gathered next)

namespace Node

/-- The condition of an attribute or a list. -/
def condition? (node : Node) : Option Condition := node.intent?.bind Intent.condition

end Node

namespace Step

def condition? : Step → Option Condition
  | .andCondition condition => some condition
  | .declare _ | .build _ _ | .project | .setUpdate _ _ | .andKeyCondition _ => none

def keyCondition? : Step → Option KeyCondition
  | .andKeyCondition condition => some condition
  | .declare _ | .build _ _ | .project | .andCondition _ | .setUpdate _ _ => none

/-- Of a condition and of a key condition, a step changes at most what it carries itself. -/
theorem perform_conditions (step : Step) (node after : Node) (answer : Except Error Unit)
    (done : step.perform node = some (after, answer)) :
    after.condition? = (step.condition?.map (.andThen node.condition?)).or node.condition? ∧
      after.keyCondition =
        (step.keyCondition?.map (.andThen node.keyCondition)).or node.keyCondition := by
  have wanted := Node.perform_demand step node after answer done
  have intent : after.intent? = (step.demand answer node.demand).intent :=
    congrArg Node.Demand.intent wanted
  have key : after.keyCondition = (step.demand answer node.demand).keyCondition :=
    congrArg Node.Demand.keyCondition wanted
  rw [Node.condition?, Node.condition?, intent, key]
  cases step with
  | declare | build | project | andKeyCondition => exact ⟨rfl, rfl⟩
  | setUpdate => exact ⟨by cases node <;> rfl, rfl⟩
  | andCondition condition =>
      refine ⟨?_, rfl⟩
      cases node with
      | «attribute» | list => rfl
      | key => cases done

end Step

namespace Node

theorem Fresh.no_condition {node : Node} (fresh : node.Fresh) :
    node.condition? = none ∧ node.keyCondition = none := by
  cases fresh <;> exact ⟨rfl, rfl⟩

theorem condition_accrues : Accrues condition? none Step.condition? Condition.join where
  fresh node fresh := fresh.no_condition.1
  alike before after alike := congrArg (Option.bind · Intent.condition) alike.intent
  performed step node after answer done := by
    rw [(step.perform_conditions node after answer done).1]
    cases step.condition? <;> rfl

theorem keyCondition_accrues :
    Accrues keyCondition none Step.keyCondition? KeyCondition.join where
  fresh node fresh := fresh.no_condition.2
  alike before after alike := alike.keyCondition
  performed step node after answer done := by
    rw [(step.perform_conditions node after answer done).2]
    cases step.keyCondition? <;> rfl

end Node

end ItemExpressions
