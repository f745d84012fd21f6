import Requirements.Proofs.Repository.Indexing

/-! Names by their texts. A search remembers where it was by the texts of names, and an index keeps
nothing else of them. That is enough for what was read from documents: the text of such a name tells
the name, so elements of one key, and records of one key, are of one name. -/
namespace Requirements

namespace Element

def IsRead (element : Element) : Prop :=
  ∃ text file document, Document.parse text file = .ok document ∧ element ∈ document.elements

def names (element : Element) : List QualifiedName :=
  element.name :: (element.ancestor.toList ++ element.parent.toList ++ element.features ++ element.calls)

theorem IsRead.wellFormed {element : Element} (isRead : element.IsRead) : ∃ file, element.WellFormed file := by
  obtain ⟨text, file, document, parsed, member⟩ := isRead
  exact ⟨file, Document.wellFormed_parse parsed element member⟩

theorem IsRead.legible {element : Element} (isRead : element.IsRead) : ∀ name ∈ element.names, name.Legible := by
  obtain ⟨file, wellFormed⟩ := isRead.wellFormed
  simp only [names, List.mem_cons, List.mem_append, Option.mem_toList]
  rintro name (rfl | (((isAncestor | isParent) | isFeature) | isCall))
  · exact wellFormed.name.legible
  · exact (wellFormed.ancestor name isAncestor).legible
  · exact (wellFormed.parent name isParent).legible
  · exact (wellFormed.features name isFeature).legible
  · exact (wellFormed.calls name isCall).legible

/-- What a search has seen is told by the key. -/
theorem key_eq_iff {first second : Element} (isRead : first.IsRead) (isReadToo : second.IsRead) :
    first.key = second.key ↔ first.kind = second.kind ∧ first.name = second.name := by
  rw [key, key, Prod.mk.injEq]
  refine and_congr_right fun _ => ⟨fun same => ?_, fun same => same ▸ rfl⟩
  exact QualifiedName.eq_of_text (isRead.legible _ List.mem_cons_self).1
    (isReadToo.legible _ List.mem_cons_self).1 same

end Element

namespace Record

/-- A record tells the name of what is declared. -/
theorem qualifiedName_ofDeclaration {reference : Reference} (legible : reference.owner.Legible) :
    (ofDeclaration reference).qualifiedName = reference.owner := QualifiedName.parse_text_iff.mpr legible

theorem key_ofDeclaration_eq_iff {first second : Reference} (legible : first.owner.Legible)
    (legibleToo : second.owner.Legible) : (ofDeclaration first).key = (ofDeclaration second).key ↔
      first.kind = second.kind ∧ first.owner = second.owner := by
  constructor
  · intro same
    obtain ⟨sameKind, sameName⟩ := Prod.mk.inj (Prod.mk.inj same).2
    exact ⟨sameKind, QualifiedName.eq_of_text legible.1 legibleToo.1 sameName⟩
  · rintro ⟨sameKind, sameOwner⟩
    rw [key, key, ofDeclaration, ofDeclaration, sameKind, sameOwner]

end Record

namespace Document

variable {text file : String} {document : Document}

theorem isRead_of_parse (parsed : parse text file = .ok document) {element : Element}
    (member : element ∈ document.elements) : element.IsRead := ⟨text, file, document, parsed, member⟩

/-- A declaration is owned by an element of the document. -/
theorem legible_of_declarations (parsed : parse text file = .ok document) {known : KnownTypes}
    {settings : Settings} {reference : Reference}
    (member : reference ∈ (document.references known settings).declarations) : reference.owner.Legible := by
  rw [declarations_references] at member
  obtain ⟨element, isElement, rfl⟩ := List.mem_map.mp member
  exact (isRead_of_parse parsed isElement).legible _ List.mem_cons_self

/-- A record tells the name of what is depended on. -/
theorem referred_of_dependencies (parsed : parse text file = .ok document) {known : KnownTypes}
    {settings : Settings} {reference : Reference}
    (member : reference ∈ (document.references known settings).dependencies) :
    reference.referred = some (Record.ofDependency reference).qualifiedName := by
  obtain ⟨-, name, isReferred, wellFormed⟩ := mem_dependencies (wellFormed_parse parsed) member
  rw [isReferred, Record.ofDependency, isReferred]
  exact congrArg some (QualifiedName.parse_text wellFormed).symm

end Document

/-- A name comes back from its text exactly when no dot stands in its id and its domain is not the empty
text. A text comes back from the name that is read from it unless its only dot starts it, and then
without that dot. All names in documents that were read come back, so the keys by which searches and
indices know elements are those of one kind and name, and a record tells the name it was made for. -/
theorem names_told_by_texts :
    (∀ name : QualifiedName, QualifiedName.parse name.text = name ↔
      '.' ∉ name.id.toList ∧ name.domain ≠ some "") ∧
    (∀ id : String, '.' ∉ id.toList → (QualifiedName.parse ("." ++ id)).text = id) ∧
    (∀ text : String, (∀ id : String, '.' ∉ id.toList → text ≠ "." ++ id) →
      (QualifiedName.parse text).text = text) ∧
    (∀ element : Element, element.IsRead → ∀ name ∈ element.names,
      '.' ∉ name.id.toList ∧ name.domain ≠ some "") ∧
    (∀ first second : Element, first.IsRead → second.IsRead →
      (first.key = second.key ↔ first.kind = second.kind ∧ first.name = second.name)) ∧
    ∀ text file document known settings, Document.parse text file = .ok document →
      (∀ reference ∈ (document.references known settings).declarations,
        (Record.ofDeclaration reference).qualifiedName = reference.owner) ∧
      (∀ reference ∈ (document.references known settings).dependencies,
        reference.referred = some (Record.ofDependency reference).qualifiedName) ∧
      ∀ otherText otherFile other knownToo, Document.parse otherText otherFile = .ok other →
        ∀ first ∈ (document.references known settings).declarations,
        ∀ second ∈ (other.references knownToo settings).declarations,
          (Record.ofDeclaration first).key = (Record.ofDeclaration second).key ↔
            first.kind = second.kind ∧ first.owner = second.owner := by
  refine ⟨fun name => QualifiedName.parse_text_iff, fun id => QualifiedName.text_parse_of_leading,
    fun text => QualifiedName.text_parse_of_not_leading, fun element isRead => isRead.legible,
    fun first second => Element.key_eq_iff, fun text file document known settings parsed => ⟨?_, ?_, ?_⟩⟩
  · intro reference member
    exact Record.qualifiedName_ofDeclaration (Document.legible_of_declarations parsed member)
  · exact fun reference => Document.referred_of_dependencies parsed
  · intro _ _ _ _ parsedToo first isFirst second isSecond
    exact Record.key_ofDeclaration_eq_iff (Document.legible_of_declarations parsed isFirst)
      (Document.legible_of_declarations parsedToo isSecond)

def twiceOrderedText : String := "domain com.acme; class Order from Base; class com.acme.Order { use Notes; }"

theorem names_told_by_texts_twiceOrdered : (QualifiedName.parse ".Order").text = "Order" ∧
    ∃ first second, Document.parse twiceOrderedText "order.reqm" = .ok ⟨some "com.acme", [first, second]⟩ ∧
      first.key = second.key ∧ first.name = second.name ∧
      ∀ name ∈ second.names, '.' ∉ name.id.toList ∧ name.domain ≠ some "" := by
  obtain ⟨first, second, parsed, keys⟩ : ∃ first second,
      Document.parse twiceOrderedText "order.reqm" = .ok ⟨some "com.acme", [first, second]⟩ ∧
        first.key = second.key := ⟨_, _, rfl, rfl⟩
  have isFirst : first.IsRead := Document.isRead_of_parse parsed (by simp)
  have isSecond : second.IsRead := Document.isRead_of_parse parsed (by simp)
  have ⟨_, leading, _, legible, told, _⟩ := names_told_by_texts
  exact ⟨leading "Order" (by simp), first, second, parsed, keys, ((told first second isFirst isSecond).mp keys).2,
    legible second isSecond⟩

end Requirements
