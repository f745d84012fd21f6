import Requirements.Proofs.Document.Grammar

/-! Terminals are written by one tree at most. Every optional part is told by the terminal that
comes next, so what a part is followed by decides where it ends. -/
namespace Requirements.Grammar

/-! ### What can come next -/

def Begins (firsts terminals : List Terminal) : Prop := ∃ first ∈ firsts, terminals.head? = some first

@[simp] theorem begins_cons {firsts behind : List Terminal} {first : Terminal} :
    Begins firsts (first :: behind) ↔ first ∈ firsts := by
  simp [Begins]

theorem Begins.mono {firsts others terminals : List Terminal} (subset : firsts ⊆ others)
    (begins : Begins firsts terminals) : Begins others terminals := by
  obtain ⟨first, member, head⟩ := begins
  exact ⟨first, subset member, head⟩

def afterHead : List Terminal := [.mark .semicolon, .mark .openBrace]

def afterPresence : List Terminal := .mark .equals :: afterHead

def afterType : List Terminal :=
  .identifier Presence.mandatory.keyword :: .identifier Presence.optional.keyword :: afterPresence

def afterClauses : List Terminal := [.mark .semicolon, .mark .openBrace]

def afterAncestor : List Terminal := .identifier "extends" :: afterClauses

def afterName : List Terminal := .identifier "from" :: afterAncestor

def afterItem : List Terminal := [.mark .comma, .mark .closeBracket]

theorem begins_assignment {assignment : Assignment} {behind : List Terminal} (ends : Begins afterHead behind) :
    Begins afterPresence (assignment.terminals ++ behind) := by
  cases assignment with
  | absent => exact ends.mono (by simp [afterPresence])
  | single | list => simp [Assignment.terminals, afterPresence]

theorem begins_presence {presence : Option Presence} {behind : List Terminal} (ends : Begins afterPresence behind) :
    Begins afterType (presenceTerminals presence ++ behind) := by
  cases presence with
  | none => exact ends.mono (by simp [afterType])
  | some presence => cases presence <;> simp [presenceTerminals, afterType]

theorem begins_body {body : Option (List Member)} {behind : List Terminal} :
    Begins afterClauses (bodyTerminals body ++ behind) := by
  cases body <;> simp [bodyTerminals, afterClauses]

theorem begins_clause {word : String} {name : Option Name} {firsts behind : List Terminal}
    (ends : Begins firsts behind) :
    Begins (.identifier word :: firsts) (clauseTerminals word name ++ behind) := by
  cases name with
  | none => exact ends.mono (by simp)
  | some name => simp [clauseTerminals]

theorem begins_items {values : List Value} {behind : List Terminal} :
    Begins afterItem (values.flatMap Value.furtherTerminals ++ .mark .closeBracket :: behind) := by
  cases values <;> simp [Value.furtherTerminals, afterItem]

/-! ### One tree for the terminals -/

/-- Items one after the other, up to where none can start, are told apart if each is told from
what follows it. -/
theorem items_unique {α : Type} (write : α → List Terminal) (Stop : List Terminal → Prop)
    (starts : ∀ item behind, ¬ Stop (write item ++ behind)) {items others : List α}
    (each : ∀ item ∈ items, ∀ other r s, write item ++ r = write other ++ s →
      (Stop r ∨ ∃ next behind, r = write next ++ behind) →
      (Stop s ∨ ∃ next behind, s = write next ++ behind) → item = other ∧ r = s)
    {r s : List Terminal} (stopR : Stop r) (stopS : Stop s)
    (same : items.flatMap write ++ r = others.flatMap write ++ s) : items = others ∧ r = s := by
  have follows : ∀ (more : List α) {t}, Stop t →
      Stop (more.flatMap write ++ t) ∨ ∃ next behind, more.flatMap write ++ t = write next ++ behind := by
    intro more t stop
    cases more with
    | nil => exact .inl stop
    | cons next more => exact .inr ⟨next, _, by rw [List.flatMap_cons, List.append_assoc]⟩
  induction items generalizing others with
  | nil =>
    cases others with
    | nil => exact ⟨rfl, same⟩
    | cons other others =>
      rw [List.flatMap_nil, List.nil_append, List.flatMap_cons, List.append_assoc] at same
      exact absurd (same ▸ stopR) (starts other _)
  | cons item items ih =>
    rw [List.flatMap_cons, List.append_assoc] at same
    cases others with
    | nil =>
      rw [List.flatMap_nil, List.nil_append] at same
      exact absurd (same ▸ stopS) (starts item _)
    | cons other others =>
      rw [List.flatMap_cons, List.append_assoc] at same
      obtain ⟨rfl, behind⟩ := each item (by simp) other _ _ same (follows _ stopR) (follows _ stopS)
      obtain ⟨rfl, rest⟩ := ih (fun item member => each item (by simp [member])) behind
      exact ⟨rfl, rest⟩

def NoDot (terminals : List Terminal) : Prop := terminals.head? ≠ some (.mark .dot)

theorem Begins.noDot {firsts terminals : List Terminal} (begins : Begins firsts terminals)
    (absent : .mark .dot ∉ firsts) : NoDot terminals := by
  obtain ⟨first, member, head⟩ := begins
  intro isDot
  exact absent (Option.some.inj (head.symm.trans isDot) ▸ member)

/-- The same for items up to a closing mark. -/
theorem closed_unique {α : Type} (write : α → List Terminal) {close : TokenKind}
    (starts : ∀ item behind rest, write item ++ behind ≠ .mark close :: rest) {items others : List α}
    (each : ∀ item ∈ items, ∀ other r s, write item ++ r = write other ++ s →
      (Begins [.mark close] r ∨ ∃ next behind, r = write next ++ behind) →
      (Begins [.mark close] s ∨ ∃ next behind, s = write next ++ behind) → item = other ∧ r = s)
    {r s : List Terminal}
    (same : items.flatMap write ++ .mark close :: r = others.flatMap write ++ .mark close :: s) :
    items = others ∧ r = s := by
  obtain ⟨rfl, closed⟩ := items_unique write (Begins [.mark close]) (fun item behind ⟨first, isFirst, head⟩ => by
    obtain rfl := List.mem_singleton.mp isFirst
    obtain ⟨rest, split⟩ := List.head?_eq_some_iff.mp head
    exact starts item behind rest split) each (by simp) (by simp) same
  exact ⟨rfl, (List.cons.inj closed).2⟩

theorem Name.unique {a b : Name} {r s : List Terminal} (noDotR : NoDot r) (noDotS : NoDot s)
    (same : a.terminals ++ r = b.terminals ++ s) : a = b ∧ r = s := by
  obtain ⟨first, others⟩ := a
  obtain ⟨first', others'⟩ := b
  obtain ⟨words, behind⟩ := List.cons.inj same
  obtain rfl : first = first' := Terminal.identifier.inj words
  obtain ⟨rfl, rest⟩ := items_unique furtherTerminals NoDot
    (fun item behind noDot => noDot rfl) (fun word _ other r s same _ _ => by
      simpa [furtherTerminals] using same) noDotR noDotS behind
  exact ⟨rfl, rest⟩

theorem Value.unique {a b : Value} {r s : List Terminal} (noDotR : NoDot r) (noDotS : NoDot s)
    (same : a.terminals ++ r = b.terminals ++ s) : a = b ∧ r = s := by
  cases a <;> cases b
  case named.named a b =>
    obtain ⟨rfl, rest⟩ := Name.unique noDotR noDotS same
    exact ⟨rfl, rest⟩
  all_goals simp_all [terminals, Name.terminals]

theorem Value.ne_mark (value : Value) {kind : TokenKind} (behind rest : List Terminal) :
    value.terminals ++ behind ≠ .mark kind :: rest := by
  cases value <;> simp [terminals, Name.terminals]

theorem Assignment.items_unique {a b : List Value} {r s : List Terminal}
    (same : itemTerminals a ++ .mark .closeBracket :: r = itemTerminals b ++ .mark .closeBracket :: s) :
    a = b ∧ r = s := by
  cases a with
  | nil =>
    cases b with
    | nil => simpa [itemTerminals] using same
    | cons second others =>
      rw [itemTerminals, itemTerminals, List.append_assoc] at same
      exact absurd same.symm (second.ne_mark _ _)
  | cons first rest =>
    cases b with
    | nil =>
      rw [itemTerminals, itemTerminals, List.append_assoc] at same
      exact absurd same (first.ne_mark _ _)
    | cons second others =>
      rw [itemTerminals, itemTerminals, List.append_assoc, List.append_assoc] at same
      obtain ⟨rfl, behind⟩ := Value.unique (begins_items.noDot (by simp [afterItem]))
        (begins_items.noDot (by simp [afterItem])) same
      have follow : ∀ {t : List Terminal}, (Begins [.mark .closeBracket] t ∨
          ∃ (next : Value) (behind : _), t = next.furtherTerminals ++ behind) → NoDot t := by
        rintro t (stop | ⟨next, behind, rfl⟩)
        · exact stop.noDot (by simp)
        · simp [NoDot, Value.furtherTerminals]
      obtain ⟨rfl, rest⟩ := closed_unique Value.furtherTerminals
        (fun value behind => by simp [Value.furtherTerminals])
        (fun value _ other r s same followR followS => Value.unique (follow followR) (follow followS)
          (List.cons.inj same).2) behind
      exact ⟨rfl, rest⟩

theorem Assignment.unique {a b : Assignment} {r s : List Terminal} (endsR : Begins afterHead r)
    (endsS : Begins afterHead s) (same : a.terminals ++ r = b.terminals ++ s) : a = b ∧ r = s := by
  have noDotR := endsR.noDot (by simp [afterHead])
  have noDotS := endsS.noDot (by simp [afterHead])
  cases a with
  | absent =>
    cases b with
    | absent => exact ⟨rfl, same⟩
    | single | list =>
      rw [terminals, List.nil_append] at same
      simp [same, terminals, afterHead] at endsR
  | single a =>
    cases b with
    | absent =>
      rw [terminals, terminals, List.nil_append] at same
      simp [← same, afterHead] at endsS
    | single b =>
      obtain ⟨rfl, rest⟩ := Value.unique noDotR noDotS (List.cons.inj same).2
      exact ⟨rfl, rest⟩
    | list b => exact absurd (List.cons.inj same).2 (a.ne_mark _ _)
  | list a =>
    cases b with
    | absent =>
      rw [terminals, terminals, List.nil_append] at same
      simp [← same, afterHead] at endsS
    | single b => exact absurd (List.cons.inj same).2.symm (b.ne_mark _ _)
    | list b =>
      simp only [terminals, List.cons_append, List.cons.injEq, true_and, List.append_assoc,
        List.nil_append] at same
      obtain ⟨rfl, rest⟩ := items_unique same
      exact ⟨rfl, rest⟩

/-- A type of the name `list` is followed by what follows types, and that is not `of`. -/
theorem Name.ne_listMark (name : Name) {t behind : List Terminal} (ends : Begins afterType t) :
    name.terminals ++ t ≠ .identifier "list" :: .identifier "of" :: behind := by
  intro same
  obtain ⟨first, others⟩ := name
  cases others with
  | nil =>
    obtain ⟨-, rfl⟩ := List.cons.inj same
    simp [afterType, afterPresence, afterHead, Presence.keyword] at ends
  | cons word others => simp [terminals, furtherTerminals] at same

theorem Typing.unique {a b : Typing} {r s : List Terminal} (endsR : Begins afterType r)
    (endsS : Begins afterType s) (same : a.terminals ++ r = b.terminals ++ s) : a = b ∧ r = s := by
  have noDotR := endsR.noDot (by simp [afterType, afterPresence, afterHead])
  have noDotS := endsS.noDot (by simp [afterType, afterPresence, afterHead])
  cases a with
  | absent =>
    cases b with
    | absent => exact ⟨rfl, same⟩
    | single | listOf =>
      rw [terminals, List.nil_append] at same
      simp [same, terminals, afterType, afterPresence, afterHead] at endsR
  | single a =>
    cases b with
    | absent =>
      rw [terminals, terminals, List.nil_append] at same
      simp [← same, afterType, afterPresence, afterHead] at endsS
    | single b =>
      obtain ⟨rfl, rest⟩ := Name.unique noDotR noDotS (List.cons.inj same).2
      exact ⟨rfl, rest⟩
    | listOf b => exact absurd (List.cons.inj same).2 (a.ne_listMark endsR)
  | listOf a =>
    cases b with
    | absent =>
      rw [terminals, terminals, List.nil_append] at same
      simp [← same, afterType, afterPresence, afterHead] at endsS
    | single b => exact absurd (List.cons.inj same).2.symm (b.ne_listMark endsS)
    | listOf b =>
      simp only [terminals, List.cons_append, List.cons.injEq, true_and] at same
      obtain ⟨rfl, rest⟩ := Name.unique noDotR noDotS same
      exact ⟨rfl, rest⟩

theorem presence_unique {a b : Option Presence} {r s : List Terminal} (endsR : Begins afterPresence r)
    (endsS : Begins afterPresence s) (same : presenceTerminals a ++ r = presenceTerminals b ++ s) :
    a = b ∧ r = s := by
  have noWord : ∀ {t : List Terminal} {presence : Presence} {behind}, Begins afterPresence t →
      t ≠ .identifier presence.keyword :: behind := by
    rintro _ _ _ ends rfl
    simp [afterPresence, afterHead] at ends
  match a, b with
  | none, none => exact ⟨rfl, same⟩
  | none, some _ => exact absurd same (noWord endsR)
  | some _, none => exact absurd same.symm (noWord endsS)
  | some a, some b =>
    obtain ⟨words, rest⟩ := List.cons.inj same
    cases a <;> cases b <;> simp_all [Presence.keyword]

theorem Head.unique {a b : Head} {r s : List Terminal} (endsR : Begins afterHead r)
    (endsS : Begins afterHead s) (same : a.terminals ++ r = b.terminals ++ s) : a = b ∧ r = s := by
  obtain ⟨key, typing, presence, assignment⟩ := a
  obtain ⟨key', typing', presence', assignment'⟩ := b
  simp only [terminals, List.cons_append, List.cons.injEq, Terminal.identifier.injEq,
    List.append_assoc] at same
  obtain ⟨rfl, behindKey⟩ := same
  obtain ⟨rfl, behindType⟩ := Typing.unique (begins_presence (begins_assignment endsR))
    (begins_presence (begins_assignment endsS)) behindKey
  obtain ⟨rfl, last⟩ := presence_unique (begins_assignment endsR) (begins_assignment endsS) behindType
  obtain ⟨rfl, rest⟩ := Assignment.unique endsR endsS last
  exact ⟨rfl, rest⟩

theorem Node.ne_closeBrace (node : Node) (behind rest : List Terminal) :
    node.terminals ++ behind ≠ .mark .closeBrace :: rest := by
  cases node <;> simp [terminals, Head.terminals]

mutual

theorem Node.unique : ∀ (a b : Node) (r s : List Terminal),
    a.terminals ++ r = b.terminals ++ s → a = b ∧ r = s
  | .plain a, b, r, s, same => by
    rw [Node.terminals, List.append_assoc] at same
    cases b with
    | plain b =>
      rw [Node.terminals, List.append_assoc] at same
      obtain ⟨rfl, rest⟩ := Head.unique (by simp [afterHead]) (by simp [afterHead]) same
      exact ⟨rfl, (List.cons.inj rest).2⟩
    | compound b attributes =>
      rw [Node.terminals, List.append_assoc] at same
      obtain ⟨-, rest⟩ := Head.unique (by simp [afterHead]) (by simp [afterHead]) same
      simp at rest
  | .compound a attributes, b, r, s, same => by
    rw [Node.terminals, List.append_assoc] at same
    cases b with
    | plain b =>
      rw [Node.terminals, List.append_assoc] at same
      obtain ⟨-, rest⟩ := Head.unique (by simp [afterHead]) (by simp [afterHead]) same
      simp at rest
    | compound b others =>
      rw [Node.terminals, List.append_assoc] at same
      obtain ⟨rfl, rest⟩ := Head.unique (by simp [afterHead]) (by simp [afterHead]) same
      simp only [Node.attributesTerminals_eq, List.cons_append, List.cons.injEq, true_and,
        List.append_assoc, List.nil_append] at rest
      obtain ⟨rfl, last⟩ := closed_unique Node.terminals Node.ne_closeBrace
        (fun node member other r s same _ _ => Node.each_unique attributes node member other r s same) rest
      exact ⟨rfl, last⟩

theorem Node.each_unique : ∀ (nodes : List Node), ∀ a ∈ nodes, ∀ (b : Node) (r s : List Terminal),
    a.terminals ++ r = b.terminals ++ s → a = b ∧ r = s
  | [], _, member, _, _, _, _ => absurd member (by simp)
  | first :: others, a, member, b, r, s, same => by
    rcases List.mem_cons.mp member with isFirst | later
    · rw [isFirst] at same ⊢
      exact Node.unique first b r s same
    · exact Node.each_unique others a later b r s same

end

theorem opensDirective_node (node : Node) (behind : List Terminal) :
    opensDirective (node.terminals ++ behind) = opensDirective node.terminals := by
  -- The key and what follows it are terminals of the property.
  have second : ∀ {first second : Terminal} {more : List Terminal},
      opensDirective (first :: second :: more ++ behind) = opensDirective (first :: second :: more) := by
    intro first second more
    cases first <;> cases second <;> rfl
  obtain ⟨first, next, more, split⟩ : ∃ first next more, node.terminals = first :: next :: more := by
    cases node with
    | plain head =>
      cases rest : head.typing.terminals ++ (presenceTerminals head.presence ++ head.assignment.terminals) <;>
        simp [Node.terminals, Head.terminals, rest]
    | compound head attributes =>
      cases rest : head.typing.terminals ++ (presenceTerminals head.presence ++ head.assignment.terminals) <;>
        simp [Node.terminals, Head.terminals, rest]
  rw [split, second]

theorem Member.unique {a b : Member} {r s : List Terminal} (same : a.terminals ++ r = b.terminals ++ s) :
    a = b ∧ r = s := by
  have directive : ∀ {word : String} {a b : Name}, directiveTerminals word a ++ r = directiveTerminals word b ++ s →
      a = b ∧ r = s := by
    intro word a b same
    simp only [directiveTerminals, List.cons_append, List.cons.injEq, true_and, List.append_assoc,
      List.nil_append] at same
    obtain ⟨rfl, closed⟩ := Name.unique (by simp [NoDot]) (by simp [NoDot]) same
    exact ⟨rfl, (List.cons.inj closed).2⟩
  have noDirective : ∀ {word : String} {name : Name} {node : Node} {front behind : List Terminal},
      (word == "use" || word == "call") = true → opensDirective node.terminals = false →
      directiveTerminals word name ++ front ≠ node.terminals ++ behind := by
    intro word name node front behind isDirective plain same
    rw [← opensDirective_node node behind, ← same] at plain
    exact Bool.noConfusion (isDirective.symm.trans plain)
  cases a with
  | feature a =>
    cases b with
    | feature b =>
      obtain ⟨rfl, rest⟩ := directive same
      exact ⟨rfl, rest⟩
    | call b => simp [terminals, directiveTerminals] at same
    | property node plain => exact absurd same (noDirective rfl plain)
  | call a =>
    cases b with
    | feature b => simp [terminals, directiveTerminals] at same
    | call b =>
      obtain ⟨rfl, rest⟩ := directive same
      exact ⟨rfl, rest⟩
    | property node plain => exact absurd same (noDirective rfl plain)
  | property node plain =>
    cases b with
    | feature b => exact absurd same.symm (noDirective rfl plain)
    | call b => exact absurd same.symm (noDirective rfl plain)
    | property other =>
      obtain ⟨rfl, rest⟩ := Node.unique node other r s same
      exact ⟨rfl, rest⟩

theorem clause_unique {word : String} {a b : Option Name} {firsts r s : List Terminal}
    (noWord : .identifier word ∉ firsts) (noDot : .mark .dot ∉ firsts) (endsR : Begins firsts r)
    (endsS : Begins firsts s) (same : clauseTerminals word a ++ r = clauseTerminals word b ++ s) :
    a = b ∧ r = s := by
  match a, b with
  | none, none => exact ⟨rfl, same⟩
  | none, some b =>
    rw [clauseTerminals, clauseTerminals, List.nil_append] at same
    exact absurd (begins_cons.mp (same ▸ endsR)) noWord
  | some a, none =>
    rw [clauseTerminals, clauseTerminals, List.nil_append] at same
    exact absurd (begins_cons.mp (same.symm ▸ endsS)) noWord
  | some a, some b =>
    obtain ⟨rfl, rest⟩ := Name.unique (endsR.noDot noDot) (endsS.noDot noDot) (List.cons.inj same).2
    exact ⟨rfl, rest⟩

theorem Member.ne_closeBrace (member : Member) (behind rest : List Terminal) :
    member.terminals ++ behind ≠ .mark .closeBrace :: rest := by
  cases member with
  | feature | call => simp [terminals, directiveTerminals]
  | property node => exact node.ne_closeBrace behind rest

theorem body_unique {a b : Option (List Member)} {r s : List Terminal}
    (same : bodyTerminals a ++ r = bodyTerminals b ++ s) : a = b ∧ r = s := by
  match a, b with
  | none, none => exact ⟨rfl, (List.cons.inj same).2⟩
  | none, some b => simp [bodyTerminals] at same
  | some a, none => simp [bodyTerminals] at same
  | some a, some b =>
    simp only [bodyTerminals, List.cons_append, List.cons.injEq, true_and, List.append_assoc,
      List.nil_append] at same
    obtain ⟨rfl, rest⟩ := closed_unique Member.terminals Member.ne_closeBrace
      (fun member _ other r s same _ _ => Member.unique same) same
    exact ⟨rfl, rest⟩

theorem keyword_inj {a b : ElementKind} (same : a.keyword = b.keyword) : a = b := by
  cases a <;> cases b <;> first | rfl | simp [ElementKind.keyword] at same

theorem Declaration.unique {a b : Declaration} {r s : List Terminal}
    (same : a.terminals ++ r = b.terminals ++ s) : a = b ∧ r = s := by
  obtain ⟨kind, name, ancestor, parent, body⟩ := a
  obtain ⟨kind', name', ancestor', parent', body'⟩ := b
  simp only [terminals, List.cons_append, List.cons.injEq, Terminal.identifier.injEq,
    List.append_assoc] at same
  obtain ⟨keywords, behindKind⟩ := same
  obtain rfl := keyword_inj keywords
  have ends : ∀ (parent : Option Name) (body : Option (List Member)) (t : List Terminal),
      Begins afterAncestor (clauseTerminals "extends" parent ++ (bodyTerminals body ++ t)) :=
    fun _ _ _ => begins_clause begins_body
  have named : ∀ (ancestor parent : Option Name) (body : Option (List Member)) (t : List Terminal),
      NoDot (clauseTerminals "from" ancestor ++ (clauseTerminals "extends" parent ++ (bodyTerminals body ++ t))) :=
    fun _ _ _ _ => (begins_clause (ends _ _ _)).noDot (by simp [afterAncestor, afterClauses])
  obtain ⟨rfl, behindName⟩ := Name.unique (named _ _ _ _) (named _ _ _ _) behindKind
  obtain ⟨rfl, behindAncestor⟩ := clause_unique (by simp [afterAncestor, afterClauses])
    (by simp [afterAncestor, afterClauses]) (ends ..) (ends ..) behindName
  obtain ⟨rfl, behindParent⟩ := clause_unique (by simp [afterClauses]) (by simp [afterClauses])
    begins_body begins_body behindAncestor
  obtain ⟨rfl, rest⟩ := body_unique behindParent
  exact ⟨rfl, rest⟩

/-- No kind of element is introduced by the word `domain`. -/
theorem ne_domain (declarations : List Declaration) (behind : List Terminal) :
    declarations.flatMap Declaration.terminals ≠ .identifier "domain" :: behind := by
  intro same
  cases declarations with
  | nil => simp at same
  | cons first others =>
    have words := Terminal.identifier.inj (List.cons.inj same).1
    cases kind : first.kind <;> simp [kind, ElementKind.keyword] at words

theorem domain_unique {a b : Option Name} {declarations others : List Declaration}
    (same : domainTerminals a ++ declarations.flatMap Declaration.terminals =
      domainTerminals b ++ others.flatMap Declaration.terminals) :
    a = b ∧ declarations.flatMap Declaration.terminals = others.flatMap Declaration.terminals := by
  match a, b with
  | none, none => exact ⟨rfl, same⟩
  | none, some b => exact absurd same (ne_domain declarations _)
  | some a, none => exact absurd same.symm (ne_domain others _)
  | some a, some b =>
    simp only [domainTerminals, List.cons_append, List.cons.injEq, true_and, List.append_assoc,
      List.nil_append] at same
    obtain ⟨rfl, closed⟩ := Name.unique (by simp [NoDot]) (by simp [NoDot]) same
    exact ⟨rfl, (List.cons.inj closed).2⟩

theorem Source.unique {a b : Source} (same : a.terminals = b.terminals) : a = b := by
  obtain ⟨domain, declarations⟩ := a
  obtain ⟨domain', others⟩ := b
  obtain ⟨rfl, listed⟩ := domain_unique same
  obtain ⟨rfl, -⟩ := items_unique Declaration.terminals (· = []) (r := []) (s := [])
    (fun declaration behind => by simp [Declaration.terminals])
    (fun _ _ _ _ _ same _ _ => Declaration.unique same) rfl rfl (by simpa using listed)
  rfl

end Requirements.Grammar
