import Requirements.Resolution.State

/-! Actions. Every action that an authored element binds is resolved, then every action
that those call, first named first. An action declared nowhere gets an empty one in its
place. -/
namespace Requirements.Resolving

abbrev Request := QualifiedName × QualifiedName

/-- The requested action, or a new empty one. -/
def resolveAction (settings : Settings) (request : Request) : Resolving Element := do
  let (reference, requester) := request
  match ← resolve settings [.action] reference none with
  | some (_, action) => return action
  | none =>
    report (.actionMissing reference requester) reference ""
    let (_, action) ← depend (Element.emptyAction reference).used
    return action

def callsOf (action : Element) : List Request :=
  action.calls.map fun target => (target, action.name)

/-- Works off the requests. The calls of an action are requested when it is met first. -/
def resolveRequests (settings : Settings) :
    Nat → List Element.Key → List Request → Resolving Unit
  | _, _, [] => return
  | 0, _, _ :: _ => throw .stepsExhausted
  | steps + 1, met, request :: rest => do
    let action ← resolveAction settings request
    if met.contains action.key then resolveRequests settings steps met rest
    else resolveRequests settings steps (action.key :: met) (rest ++ callsOf action)

def handlerRequests (authored : Document) : List Request :=
  authored.elements.flatMap fun element =>
    element.bindings.map fun binding => (binding.handler, element.name)

def resolveActions (settings : Settings) : Resolving Unit := do
  let state ← get
  let requests := handlerRequests state.project.authored
  resolveRequests settings (requests.length + state.bound) [] requests

end Requirements.Resolving
