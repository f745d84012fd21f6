import Requirements.Property

/-! Inheritance of properties. What an ancestor declares only fills gaps: a property
that has a type stays as it is, one without a type takes type, list mark and missing
presence, and its attributes inherit in turn. Values are never inherited by a property
that exists; properties without a counterpart are appended. -/
namespace Requirements.Property

def upsert (fill : Property → Property) (fresh : Property) : List Property → List Property
  | [] => [fresh]
  | p :: rest => if p.key = fresh.key then fill p :: rest else p :: upsert fill fresh rest

mutual

/-- The property with its gap filled from a declared one. -/
def filledFrom (own : Property) : Property → Property
  | ⟨_, typeName, presence, _, listOf, _, attributes⟩ =>
    if own.typeName.isSome then own
    else { own with
      typeName
      presence := own.presence <|> presence
      listOf := if typeName.isSome then listOf else own.listOf
      attributes := inherit own.attributes attributes }

def inherit (own : List Property) : List Property → List Property
  | [] => own
  | p :: rest => inherit (upsert (fun q => filledFrom q p) p own) rest

end

@[simp] theorem inherit_nil (own : List Property) : inherit own [] = own := by rw [inherit]

theorem inherit_cons (own : List Property) (p : Property) (rest : List Property) :
    inherit own (p :: rest) = inherit (upsert (filledFrom · p) p own) rest := by rw [inherit]

/-- Layers are inherited one behind the other. -/
theorem inherit_append (own first second : List Property) :
    inherit own (first ++ second) = inherit (inherit own first) second := by
  induction first generalizing own with
  | nil => simp
  | cons p rest ih => rw [List.cons_append, inherit_cons, inherit_cons, ih]

/-- A property that has a type is left alone. -/
theorem filledFrom_of_typed {own : Property} (typed : own.typeName.isSome) (p : Property) :
    filledFrom own p = own := by
  cases p; rw [filledFrom, if_pos typed]

@[simp] theorem filledFrom_key (own p : Property) : (filledFrom own p).key = own.key := by
  cases p; rw [filledFrom]; split <;> rfl

end Requirements.Property
