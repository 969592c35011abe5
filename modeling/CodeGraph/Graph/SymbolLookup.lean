import CodeGraph.Foundation.InsertionMap
import CodeGraph.Foundation.Tails
import CodeGraph.Foundation.Text
import CodeGraph.Types

/-!
# What a name given by a user stands for

The matcher of `graph/symbol-lookup.ts` and the two lookups that go through it.
-/
namespace CodeGraph.Graph.SymbolLookup

open Text Tails InsertionMap

abbrev slash : UInt16 := 0x2F
abbrev dot : UInt16 := 0x2E
abbrev colon : UInt16 := 0x3A
abbrev backslash : UInt16 := 0x5C
abbrev bar : UInt16 := 0x7C

structure Node where
  id : JsString
  kind : NodeKind
  name : JsString
  qualifiedName : JsString
  filePath : JsString
  language : Language
  deriving DecidableEq, Repr

/-- `text.replace(/::/g, '.')` -/
def joinColons : JsString → JsString
  | [] => []
  | [u] => [u]
  | u :: v :: rest =>
    if u = colon ∧ v = colon then dot :: joinColons rest else u :: joinColons (v :: rest)

def canonicalScope (text : JsString) : JsString :=
  (joinColons text).map fun u => if u = slash ∨ u = backslash then dot else u

/-- `text.split(/::|[./]/)` -/
def splitScopes (text : JsString) : List JsString :=
  ((joinColons text).map fun u => if u = slash then dot else u).splitOn dot

/-- `/[.\/]|::/.test(symbol)` -/
def isQualifiedSymbol (symbol : JsString) : Bool :=
  symbol.any (fun u => u == dot || u == slash) || symbol.tails.any [colon, colon].isPrefixOf

def qualifierParts (symbol : JsString) : List JsString := (splitScopes symbol).filter (· ≠ [])

def isDigit (u : UInt16) : Bool := 0x30 ≤ u && u ≤ 0x39

/-- What `.` does not match in a regular expression. -/
def isLineTerminator (u : UInt16) : Bool := u == 0x0A || u == 0x0D || u == 0x2028 || u == 0x2029

/-- `/\/(\d{1,3})$/`: what is before an arity, and its digits. -/
def arity? (text : JsString) : Option (JsString × JsString) :=
  let digits := text.rtakeWhile isDigit
  let before := text.rdropWhile isDigit
  if 1 ≤ digits.length ∧ digits.length ≤ 3 ∧ before.getLast? = some slash then
    some (before.dropLast, digits)
  else none

/-- `/^(.+)\/(\d{1,3})$/` -/
def aritySpelling? (symbol : JsString) : Option (JsString × JsString) :=
  (arity? symbol).filter fun parts => !parts.1.isEmpty && !parts.1.any isLineTerminator

/-- `text.replace(/\/\d{1,3}$/, '')` -/
def withoutArity (text : JsString) : JsString := ((arity? text).map Prod.fst).getD text

def lastQualifierPart (symbol : JsString) : JsString :=
  let noArity := if withoutArity symbol = [] then symbol else withoutArity symbol
  (qualifierParts noArity).getLast?.getD symbol

/-- The symbol that the rest of the comparison is about, if the arity that it is written with is
not another one. -/
def comparedSymbol (node : Node) (symbol : JsString) : Option JsString :=
  match aritySpelling? symbol with
  | none => some symbol
  | some (spelled, digits) =>
    match arity? node.qualifiedName with
    | none => some symbol
    | some (_, nodeArity) => if nodeArity ≠ digits then none else some spelled

/-! ### The matcher -/

def RUST_PATH_PREFIXES : List JsString := [utf16 "crate", utf16 "super", utf16 "self"]

def PATH_MODULE_LANGUAGES : List Language := [.rust, .python, .go]

def TYPE_MEMBER_KINDS : List NodeKind := [.method, .property, .field, .enumMember]

/-- `name.replace(/\.[^.]+$/, '')` -/
def withoutExtension (name : JsString) : JsString :=
  if dot ∈ name ∧ name.rtakeWhile (· != dot) ≠ [] then (name.rdropWhile (· != dot)).dropLast else name

def inPath (filePath hint : JsString) : Bool :=
  ((filePath.splitOn slash).filter (· ≠ [])).any fun seg => seg == hint || withoutExtension seg == hint

def canonicalNode (node : Node) : JsString := canonicalScope (withoutArity node.qualifiedName)

def scopeOf (node : Node) : List JsString := ((canonicalNode node).splitOn dot).dropLast

def containerHints (parts : List JsString) : List JsString :=
  parts.dropLast.filter (· ∉ RUST_PATH_PREFIXES)

def endsOnBoundary (node : Node) (symbol : JsString) : Bool :=
  canonicalNode node == canonicalScope symbol ||
    (dot :: canonicalScope symbol).isSuffixOf (canonicalNode node)

def pathCanName (node : Node) (hints : List JsString) : Bool :=
  node.kind ∉ TYPE_MEMBER_KINDS || node.language ∈ PATH_MODULE_LANGUAGES ||
    (scopeOf node).isEmpty || (scopeOf node).getLast? == hints.getLast?

def splits (node : Node) (hints : List JsString) : List Nat :=
  (List.range' 1 (hints.length - 1)).filter fun k => (hints.drop k).isSuffixOf (scopeOf node)

def inDeclaredPackage (node : Node) (hints : List JsString)
    (goPackageOf : Option (JsString → Option JsString)) : Bool :=
  match goPackageOf with
  | none => false
  | some packageOf =>
    if node.language ≠ .go ∨ (!(scopeOf node).isEmpty && (splits node hints).isEmpty) then false
    else
      match packageOf node.filePath with
      | none | some [] => false
      | some declared =>
        let namesPackage := fun hint => hint == declared || inPath node.filePath hint
        (scopeOf node).isEmpty && hints.all namesPackage ||
          (splits node hints).any fun k => (hints.take k).all namesPackage

def matchesQualified (node : Node) (symbol : JsString)
    (goPackageOf : Option (JsString → Option JsString)) : Bool :=
  let parts := qualifierParts symbol
  let hints := containerHints parts
  if parts.length < 2 ∨ parts.getLast? ≠ some node.name then false
  else if endsOnBoundary node symbol then true
  else if hints.isEmpty then false
  else if pathCanName node hints && hints.all (inPath node.filePath) then true
  else if (splits node hints).any fun k => (hints.take k).all (inPath node.filePath) then true
  else inDeclaredPackage node hints goPackageOf

def matchesSymbol (node : Node) (symbol : JsString)
    (goPackageOf : Option (JsString → Option JsString)) : Bool :=
  match comparedSymbol node symbol with
  | none => false
  | some symbol =>
    if node.name = symbol then true
    else if node.kind = .file ∧ withoutExtension node.name = symbol then true
    else if !isQualifiedSymbol symbol then false
    else matchesQualified node symbol goPackageOf

/-! ### The two lookups -/

/-- The index, its complete query by name, and a search that ranks and truncates. -/
structure SymbolLookupHost where
  nodes : List Node
  searchNodes : JsString → List Node
  generatedFilePredicate : List JsString → JsString → Bool
  within : ∀ query, ∀ node ∈ searchNodes query, node ∈ nodes
  limit : ∀ query, (searchNodes query).length ≤ 50

def SymbolLookupHost.getNodesByName (cg : SymbolLookupHost) (name : JsString) : List Node :=
  cg.nodes.filter (·.name = name)

def qualifiedSymbolMatches (cg : SymbolLookupHost) (symbol : JsString)
    (goPackageOf : Option (JsString → Option JsString)) : List Node :=
  let tail := lastQualifierPart symbol
  let found := cg.searchNodes symbol
  let hits := if found = [] ∧ tail ≠ [] ∧ tail ≠ symbol then cg.searchNodes tail else found
  let ranked := hits.filter (matchesSymbol · symbol goPackageOf)
  if ranked ≠ [] ∨ tail = [] then ranked
  else (cg.getNodesByName tail).filter (matchesSymbol · symbol goPackageOf)

structure SymbolLookupResult where
  nodes : List Node
  ambiguous : Bool

/-- `path.replace(/^\.\//, '')` -/
def withoutDotSlash (path : JsString) : JsString := (after? [dot, slash] path).getD path

def definitionKey (n : Node) : JsString := n.filePath ++ bar :: n.qualifiedName

/-- One group for each file and qualified name, and whether the file hint fits none of the nodes. -/
def groupDefinitions (nodes : List Node) (fileFilter : JsString) : List (List Node) × Bool :=
  let wanted := withoutDotSlash fileFilter
  let narrowed := nodes.filter fun n =>
    n.filePath = wanted || wanted.isSuffixOf n.filePath || (slash :: wanted).isSuffixOf n.filePath
  let pool := if fileFilter ≠ [] ∧ narrowed ≠ [] then narrowed else nodes
  let byDef := pool.foldl (fun byDef n =>
    assign byDef (definitionKey n) ((lookup byDef (definitionKey n)).getD [] ++ [n])) []
  (byDef.map Prod.snd, fileFilter ≠ [] ∧ narrowed = [])

def rankedResult (cg : SymbolLookupHost) (nodes : List Node) : SymbolLookupResult :=
  let isGenerated := cg.generatedFilePredicate (nodes.map Node.filePath)
  let ranked := nodes.insertionSort fun a b => isGenerated a.filePath ≤ isGenerated b.filePath
  ⟨ranked, 1 < (groupDefinitions ranked []).1.length⟩

def lookupSymbolNodes (cg : SymbolLookupHost) (symbol : JsString)
    (goPackageOf : Option (JsString → Option JsString)) : SymbolLookupResult :=
  let qualified := isQualifiedSymbol symbol
  let tail := if qualified then lastQualifierPart symbol else symbol
  let named := if tail ≠ [] then cg.getNodesByName tail else []
  let exact := if qualified then named.filter (matchesSymbol · symbol goPackageOf) else named
  let nodes := if exact = [] then (cg.searchNodes symbol).filter (matchesSymbol · symbol goPackageOf)
    else exact
  if nodes = [] then ⟨[], false⟩ else rankedResult cg nodes

/-! ### The two lookups of a qualified name

One asks the search first and the index of names only when that finds nothing, the other asks the
index first. -/

variable (cg : SymbolLookupHost) (symbol : JsString)
  (goPackageOf : Option (JsString → Option JsString))

def IsDefinition (n : Node) : Prop :=
  n ∈ cg.nodes ∧ n.name = lastQualifierPart symbol ∧ matchesSymbol n symbol goPackageOf = true

def searched : List Node :=
  if cg.searchNodes symbol = [] ∧ lastQualifierPart symbol ≠ symbol then
    cg.searchNodes (lastQualifierPart symbol)
  else cg.searchNodes symbol

def IsHit (n : Node) : Prop :=
  n ∈ searched cg symbol ∧ matchesSymbol n symbol goPackageOf = true

/-- The search finds nothing that the query names, or just the definitions, or other nodes, by the
query as it is written, where there are no definitions. -/
def SearchFits : Prop :=
  (∀ n, ¬IsHit cg symbol goPackageOf n) ∨
    (∀ n, IsHit cg symbol goPackageOf n ↔ IsDefinition cg symbol goPackageOf n) ∨
    (∀ n, ¬IsDefinition cg symbol goPackageOf n) ∧ cg.searchNodes symbol ≠ []

variable {cg symbol goPackageOf}

theorem lastQualifierPart_ne_nil (some_ : symbol ≠ []) : lastQualifierPart symbol ≠ [] := by
  rw [lastQualifierPart]
  cases last : (qualifierParts (if withoutArity symbol = [] then symbol else withoutArity symbol)).getLast? with
  | none => exact some_
  | some part =>
    have listed := List.mem_of_getLast? last
    simpa using (List.mem_filter.mp listed).2

theorem ne_nil_of_isQualified (qualified : isQualifiedSymbol symbol = true) : symbol ≠ [] := by
  rintro rfl
  exact absurd qualified (by decide)

theorem mem_definitions {n : Node} :
    n ∈ (cg.getNodesByName (lastQualifierPart symbol)).filter (matchesSymbol · symbol goPackageOf) ↔
      IsDefinition cg symbol goPackageOf n := by
  simp only [SymbolLookupHost.getNodesByName, List.mem_filter, decide_eq_true_eq, IsDefinition,
    and_assoc]

theorem mem_hits {n : Node} :
    n ∈ (searched cg symbol).filter (matchesSymbol · symbol goPackageOf) ↔
      IsHit cg symbol goPackageOf n := List.mem_filter

/-- The hits, or the definitions where there are none. -/
theorem mem_qualifiedSymbolMatches (some_ : symbol ≠ []) {n : Node} :
    n ∈ qualifiedSymbolMatches cg symbol goPackageOf ↔
      IsHit cg symbol goPackageOf n ∨
        (∀ m, ¬IsHit cg symbol goPackageOf m) ∧ IsDefinition cg symbol goPackageOf n := by
  have tail := lastQualifierPart_ne_nil some_
  have hits : (if cg.searchNodes symbol = [] ∧ lastQualifierPart symbol ≠ [] ∧
      lastQualifierPart symbol ≠ symbol then cg.searchNodes (lastQualifierPart symbol)
      else cg.searchNodes symbol) = searched cg symbol := by
    simp only [searched, tail, ne_eq, not_false_eq_true, true_and]
  have none_ : (searched cg symbol).filter (matchesSymbol · symbol goPackageOf) = [] ↔
      ∀ m, ¬IsHit cg symbol goPackageOf m := by
    simp only [List.eq_nil_iff_forall_not_mem, mem_hits]
  rw [qualifiedSymbolMatches]
  simp only [hits, tail, or_false]
  split
  next some_ =>
    have found := none_.not.mp some_
    rw [mem_hits]
    tauto
  next empty =>
    have absent := none_.mp (not_not.mp empty)
    rw [mem_definitions]
    have other := absent n
    tauto

theorem mem_rankedResult (cg : SymbolLookupHost) {nodes : List Node} {n : Node} :
    n ∈ (rankedResult cg nodes).nodes ↔ n ∈ nodes := (List.perm_insertionSort _ nodes).mem_iff

/-- The definitions, or what the search for the whole query finds where there are none. -/
theorem mem_lookupSymbolNodes (qualified : isQualifiedSymbol symbol = true) {n : Node} :
    n ∈ (lookupSymbolNodes cg symbol goPackageOf).nodes ↔
      IsDefinition cg symbol goPackageOf n ∨ (∀ m, ¬IsDefinition cg symbol goPackageOf m) ∧
        n ∈ cg.searchNodes symbol ∧ matchesSymbol n symbol goPackageOf = true := by
  have tail := lastQualifierPart_ne_nil (ne_nil_of_isQualified qualified)
  have none_ : (cg.getNodesByName (lastQualifierPart symbol)).filter
      (matchesSymbol · symbol goPackageOf) = [] ↔ ∀ m, ¬IsDefinition cg symbol goPackageOf m := by
    simp only [List.eq_nil_iff_forall_not_mem, mem_definitions]
  have shown : ∀ nodes : List Node,
      (if nodes = [] then (⟨[], false⟩ : SymbolLookupResult) else rankedResult cg nodes).nodes =
        if nodes = [] then [] else (rankedResult cg nodes).nodes := fun nodes => apply_ite _ _ _ _
  have listed : ∀ nodes : List Node, n ∈ (if nodes = [] then [] else (rankedResult cg nodes).nodes) ↔
      n ∈ nodes := by
    intro nodes
    split
    next empty => rw [empty]
    next => exact mem_rankedResult cg
  rw [lookupSymbolNodes]
  simp only [qualified, if_true, if_pos tail, shown, listed]
  split
  next empty =>
    have absent := none_.mp empty
    have other := absent n
    rw [List.mem_filter]
    tauto
  next some_ =>
    have found := none_.not.mp some_
    rw [mem_definitions]
    tauto

theorem searched_of_ne_nil (found : cg.searchNodes symbol ≠ []) :
    searched cg symbol = cg.searchNodes symbol := by
  rw [searched, if_neg fun empty => found empty.1]

/-- The two lookups name the same nodes just where the search fits. -/
theorem qualified_lookups_agree (cg : SymbolLookupHost) (symbol : JsString)
    (goPackageOf : Option (JsString → Option JsString)) (qualified : isQualifiedSymbol symbol = true) :
    (∀ n, n ∈ qualifiedSymbolMatches cg symbol goPackageOf ↔
        n ∈ (lookupSymbolNodes cg symbol goPackageOf).nodes) ↔
      SearchFits cg symbol goPackageOf := by
  have written := ne_nil_of_isQualified qualified
  simp only [mem_qualifiedSymbolMatches written, mem_lookupSymbolNodes qualified]
  -- By the query as it is written the search finds hits, or it finds nothing at all.
  have direct : ∀ n, cg.searchNodes symbol ≠ [] →
      (n ∈ cg.searchNodes symbol ∧ matchesSymbol n symbol goPackageOf = true ↔
        IsHit cg symbol goPackageOf n) := by
    intro n found
    rw [IsHit, searched_of_ne_nil found]
  have nothing : cg.searchNodes symbol = [] → ∀ n, n ∉ cg.searchNodes symbol := by
    intro empty n
    rw [empty]
    exact List.not_mem_nil
  rw [SearchFits]
  by_cases defined : ∃ m, IsDefinition cg symbol goPackageOf m
  · obtain ⟨m, definition⟩ := defined
    have some_ : ¬∀ m, ¬IsDefinition cg symbol goPackageOf m := fun none_ => none_ m definition
    by_cases hit : ∃ h, IsHit cg symbol goPackageOf h
    · obtain ⟨h, found⟩ := hit
      have hits : ¬∀ h, ¬IsHit cg symbol goPackageOf h := fun none_ => none_ h found
      simp only [some_, hits, false_and, or_false, false_or]
    · have none_ : ∀ h, ¬IsHit cg symbol goPackageOf h := not_exists.mp hit
      simp [some_, none_]
  · have none_ : ∀ m, ¬IsDefinition cg symbol goPackageOf m := not_exists.mp defined
    by_cases found : cg.searchNodes symbol = []
    · simp [none_, found]
    · simp [none_, direct _ found, found]

/-- Methods `price` of the class `Format` in two files, of which the search lists one. -/
def twoFormats : SymbolLookupHost where
  nodes := [⟨utf16 "a", .method, utf16 "price", utf16 "Format::price", utf16 "a/Format.java", .java⟩,
    ⟨utf16 "b", .method, utf16 "price", utf16 "Format::price", utf16 "b/Format.java", .java⟩]
  searchNodes _ := [⟨utf16 "a", .method, utf16 "price", utf16 "Format::price", utf16 "a/Format.java", .java⟩]
  generatedFilePredicate _ _ := false
  within _ node listed := by
    rw [List.mem_singleton.mp listed]
    exact List.mem_cons_self
  limit _ := by decide

theorem qualified_lookups_agree_twoFormats :
    isQualifiedSymbol (utf16 "Format.price") = true ∧
      ((∀ n, n ∈ qualifiedSymbolMatches twoFormats (utf16 "Format.price") none ↔
          n ∈ (lookupSymbolNodes twoFormats (utf16 "Format.price") none).nodes) ↔
        SearchFits twoFormats (utf16 "Format.price") none) :=
  ⟨by decide, qualified_lookups_agree twoFormats (utf16 "Format.price") none (by decide)⟩

/-- The second method is found by one lookup only. -/
theorem qualified_lookups_differ :
    ∃ n, n ∉ qualifiedSymbolMatches twoFormats (utf16 "Format.price") none ∧
      n ∈ (lookupSymbolNodes twoFormats (utf16 "Format.price") none).nodes :=
  ⟨⟨utf16 "b", .method, utf16 "price", utf16 "Format::price", utf16 "b/Format.java", .java⟩,
    by decide +kernel, by decide +kernel⟩

end CodeGraph.Graph.SymbolLookup
