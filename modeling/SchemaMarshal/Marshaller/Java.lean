import SchemaMarshal.Marshaller.Basic

/-! Marshallers as Java source.

A unit is a list of lines. Bodies are the statements and branches of the marshaller, one line or a
few for each, in their order.
-/

set_option autoImplicit false

namespace SchemaMarshal.Java

/-- The variable that holds the object being read or written. -/
def instanceName : String := "o"

def invalidValue : String := "throw new IllegalArgumentException(\"Invalid value provided to enum\");"

def header (package : String) (imports : List String) : List String :=
  "// Generated by marshgen. Do not edit." ::
    (if package = "" then [] else ["package " ++ package ++ ";"]) ++
    "" :: imports.map (fun imported => "import " ++ imported ++ ";") ++
    (if imports.isEmpty then [] else [""])

def statement : Statement → String
  | .construct className =>
      "        " ++ className ++ " " ++ instanceName ++ " = new " ++ className ++ "();"
  | .assign setter call => "        " ++ instanceName ++ "." ++ setter ++ "(reader." ++ call.text none ++ ");"
  | .write call => "        writer." ++ call.text (some instanceName) ++ ";"
  | .return => "        return " ++ instanceName ++ ";"

def method (signature : String) (body : List String) : List String :=
  "    @Override" :: ("    public " ++ signature ++ " \x7b") :: body ++ ["    \x7d"]

def getJavaClass (targetClass : String) : List String :=
  method ("Class<" ++ targetClass ++ "> getJavaClass()") ["        return " ++ targetClass ++ ".class;"]

def getTypeName (typeName : String) : List String :=
  method "String getTypeName()" ["        return \"" ++ typeName ++ "\";"]

/-- What is left of a method that a marshaller of this kind does not have. -/
def foreignMember : List String := ["    @Override", "    \x7d"]

def unit (package : String) (imports : List String) (name contract targetClass : String)
    (methods : List (List String)) : List String :=
  header package imports ++
    ("public final class " ++ name ++ " implements " ++ contract ++ "<" ++ targetClass ++ "> \x7b") ::
    methods.flatMap (fun lines => "" :: lines) ++ ["\x7d"]

def messageImports (conventions : Conventions) (marshaller : MessageMarshaller) : List String :=
  let contracts := ["MessageMarshaller", "StructuredReader", "StructuredWriter"]
  "java.io.IOException" ::
    (if marshaller.fields.any fun field => field.access.isCollection then ["java.util.ArrayList"] else []) ++
    contracts.map fun contract => conventions.runtimePackage ++ "." ++ contract

def messageMember (marshaller : MessageMarshaller) : Member → List String
  | .getJavaClass => getJavaClass marshaller.targetClass
  | .getTypeName => getTypeName marshaller.typeName
  | .readFrom =>
      method (marshaller.targetClass ++ " readFrom(StructuredReader reader) throws IOException")
        (marshaller.readStatements.map statement)
  | .writeTo =>
      method ("void writeTo(StructuredWriter writer, " ++ marshaller.targetClass ++ " " ++ instanceName ++
        ") throws IOException") (marshaller.writeStatements.map statement)
  | .decode => foreignMember
  | .encode => foreignMember

def messageUnit (conventions : Conventions) (marshaller : MessageMarshaller) : List String :=
  unit marshaller.package (messageImports conventions marshaller) marshaller.name "MessageMarshaller"
    marshaller.targetClass (MessageMarshaller.members.map (messageMember marshaller))

def decodeBranch (targetClass : String) : DecodeBranch → List String
  | .case ordinal value =>
      ["            case " ++ toString ordinal.toInt ++ ":",
       "                return " ++ targetClass ++ "." ++ value ++ ";"]
  | .fail => ["            default:", "                " ++ invalidValue]

def encodeGuard : EncodeBranch → List String
  | .rejectAbsent => ["        if (value == null) \x7b", "            " ++ invalidValue, "        \x7d"]
  | .case _ _ => []

def encodeCase : EncodeBranch → List String
  | .rejectAbsent => []
  | .case value ordinal =>
      ["            case " ++ value ++ ":", "                return " ++ toString ordinal.toInt ++ ";"]

def decodeBody (marshaller : EnumMarshaller) : List String :=
  "        switch (ordinal) \x7b" ::
    marshaller.decodeBranches.flatMap (decodeBranch marshaller.targetClass) ++ ["        \x7d"]

def encodeBody (marshaller : EnumMarshaller) : List String :=
  marshaller.encodeBranches.flatMap encodeGuard ++
    "        switch (value) \x7b" ::
    marshaller.encodeBranches.flatMap encodeCase ++
    ["            default:", "                " ++ invalidValue, "        \x7d"]

def enumMember (marshaller : EnumMarshaller) : Member → List String
  | .decode => method (marshaller.targetClass ++ " decode(int ordinal)") (decodeBody marshaller)
  | .encode => method ("int encode(" ++ marshaller.targetClass ++ " value)") (encodeBody marshaller)
  | .getJavaClass => getJavaClass marshaller.targetClass
  | .getTypeName => getTypeName marshaller.typeName
  | .readFrom => foreignMember
  | .writeTo => foreignMember

def enumUnit (conventions : Conventions) (marshaller : EnumMarshaller) : List String :=
  unit marshaller.package [conventions.runtimePackage ++ ".EnumMarshaller"] marshaller.name "EnumMarshaller"
    marshaller.targetClass (EnumMarshaller.members.map (enumMember marshaller))

def lines (conventions : Conventions) : Marshaller → List String
  | .message marshaller => messageUnit conventions marshaller
  | .enumeration marshaller => enumUnit conventions marshaller

/-- Every line ends with a line feed. -/
def render (conventions : Conventions) (marshaller : Marshaller) : String :=
  String.join ((lines conventions marshaller).map fun line => line ++ "\n")

end SchemaMarshal.Java
