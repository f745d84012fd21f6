import Requirements.QualifiedName

/-! What a composition may be told to do differently. -/
namespace Requirements

def basicTypes : List String :=
  ["String", "Text", "Boolean", "Integer", "Long", "Short", "Byte", "Float", "Double",
   "Decimal", "Date", "Time", "DateTime", "Timestamp", "Binary", "Blob", "Url", "Email",
   "Uuid", "Any"]

structure Settings where
  /-- The domain of a lead application that declares none. -/
  defaultDomain : String := "default"
  /-- The ancestor of a lead application that declares none. -/
  applicationType : QualifiedName := ⟨"Application", some "reqm"⟩
  /-- The type of a property that neither declares nor inherits one. -/
  propertyType : String := "String"
  /-- Where the standard library lies below the application's home. -/
  libraryFolder : String := "stdlib"
  /-- Where the user's cache lies below the user's home. -/
  cacheFolder : String := ".reqm/cache"
  /-- The name of the index file in each folder. -/
  indexFile : String := "index"
  /-- The extension of documents, without the dot. -/
  extension : String := "reqm"
  builtinTypes : List String := basicTypes
  deriving Inhabited

/-- A type is known by its id, whatever its domain. -/
def isBasicType (typeName : String) : Bool :=
  basicTypes.contains (QualifiedName.parse typeName).id

namespace Settings

def isBuiltin (settings : Settings) (typeName : String) : Bool :=
  settings.builtinTypes.contains (QualifiedName.parse typeName).id

end Settings
end Requirements
