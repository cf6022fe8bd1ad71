namespace NixScope

inductive Builtin.Category
  | function
  | constant
  | attrs
  deriving DecidableEq, Repr, Inhabited

structure Builtin where
  name : String
  category : Builtin.Category
  deriving DecidableEq, Repr, Inhabited

namespace Builtin

def root : Builtin := ⟨"builtins", .attrs⟩

def memberNames : List String :=
  ["abort", "add", "addDrvOutputDependencies", "addErrorContext", "all", "any", "appendContext",
    "attrNames", "attrValues", "baseNameOf", "bitAnd", "bitOr", "bitXor", "break", "catAttrs",
    "ceil", "compareVersions", "concatLists", "concatMap", "concatStringsSep", "convertHash",
    "currentSystem", "currentTime", "deepSeq", "derivation", "derivationStrict", "dirOf", "div",
    "elem", "elemAt", "false", "fetchClosure", "fetchGit", "fetchMercurial", "fetchTarball",
    "fetchTree", "fetchurl", "filter", "filterSource", "findFile", "flakeRefToString", "floor",
    "foldl'", "fromJSON", "fromTOML", "functionArgs", "genList", "genericClosure", "getAttr",
    "getContext", "getEnv", "getFlake", "groupBy", "hasAttr", "hasContext", "hashFile",
    "hashString", "head", "import", "intersectAttrs", "isAttrs", "isBool", "isFloat", "isFunction",
    "isInt", "isList", "isNull", "isPath", "isString", "langVersion", "length", "lessThan",
    "listToAttrs", "map", "mapAttrs", "match", "mul", "nixPath", "nixVersion", "null", "outputOf",
    "parseDrvName", "parseFlakeRef", "partition", "path", "pathExists", "placeholder", "readDir",
    "readFile", "readFileType", "removeAttrs", "replaceStrings", "scopedImport", "seq", "sort",
    "split", "splitVersion", "storeDir", "storePath", "stringLength", "sub", "substring", "tail",
    "throw", "toFile", "toJSON", "toPath", "toString", "toXML", "trace", "traceVerbose", "true",
    "tryEval", "typeOf", "unsafeDiscardOutputDependency", "unsafeDiscardStringContext",
    "unsafeGetAttrPos", "warn", "zipAttrsWith"]

/-- Members of `builtins` that are not functions. -/
def constants : List String :=
  ["currentSystem", "currentTime", "false", "langVersion", "nixPath", "nixVersion", "null",
    "storeDir", "true"]

/-- Members of `builtins` that are also bound by themselves. -/
def globals : List String :=
  ["abort", "baseNameOf", "break", "derivation", "derivationStrict", "dirOf", "false", "fetchGit",
    "fetchMercurial", "fetchTarball", "fetchTree", "fromTOML", "import", "isNull", "map", "null",
    "placeholder", "removeAttrs", "scopedImport", "throw", "toString", "true"]

def ofMember (name : String) : Builtin :=
  ⟨name, if constants.contains name then .constant else .function⟩

def members : List Builtin := memberNames.map ofMember

def ofName? (name : String) : Option Builtin :=
  if memberNames.contains name then some (ofMember name) else none

/-- The name after two underscores, under which every member is bound as well. -/
def alias? (name : String) : Option String :=
  match name.toList with
  | '_' :: '_' :: cs => some (String.ofList cs)
  | _ => none

/-- What a name stands for where nothing declares it. -/
def global? (name : String) : Option Builtin :=
  if name = root.name then some root
  else if globals.contains name then ofName? name
  else (alias? name).bind ofName?

def isRoot (b : Builtin) : Bool := b == root

/-- Only `builtins` itself has members. -/
def member? (b : Builtin) (name : String) : Option Builtin :=
  if b.isRoot then ofName? name else none

end Builtin

end NixScope
