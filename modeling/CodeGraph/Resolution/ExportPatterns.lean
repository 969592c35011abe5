import CodeGraph.Resolution.WorkspacePackages

/-!
Which key of `exports` a subpath selects (`exportedTargets` of `resolution/workspace-packages.ts`),
beside the rule of Node's package resolution.
-/
namespace CodeGraph.Resolution

open Text InsertionMap

abbrev star : UInt16 := codeUnit '*'

/-- `pattern` has one `*`, and with `text` in its place it is `key`. -/
def Fits (pattern key text : JsString) : Prop :=
  ∃ start suffix, star ∉ start ∧ star ∉ suffix ∧ pattern = start ++ star :: suffix ∧
    key = start ++ text ++ suffix

/-- Node tries `a` before `b`: its prefix is longer, or as long while the whole key is longer. -/
def Before (a b : JsString) : Prop :=
  b.idxOf star < a.idxOf star ∨ a.idxOf star = b.idxOf star ∧ b.length < a.length

def fill (text : JsString) (targets : List JsString) : List JsString :=
  targets.map fun target => target.flatMap fun u => if u = star then text else [u]

/-- What Node selects for `key`: the targets of the exact key, those of the pattern that comes first
of the ones that fit it around some text, or none. -/
inductive NodeTargets (exports : Map JsString (List JsString)) (key : JsString) :
    List JsString → Prop
  | exact {targets : List JsString} (listed : exports.get key = some targets) :
      NodeTargets exports key targets
  | pattern {e : JsString × List JsString} {text : JsString} (absent : exports.get key = none)
      (listed : e ∈ exports.entries) (fits : Fits e.1 key text) (some_ : text ≠ [])
      (first : ∀ other ∈ exports.keys, ∀ text' ≠ [], Fits other key text' → ¬Before other e.1) :
      NodeTargets exports key (fill text e.2)
  | nothing (absent : exports.get key = none)
      (none_ : ∀ pattern ∈ exports.keys, ∀ text ≠ [], ¬Fits pattern key text) :
      NodeTargets exports key []

/-- `pattern` fits `key`, possibly around no text, none listed before it has a prefix as long, and
none after it a longer one. -/
def FirstOfLongest (keys : List JsString) (key pattern : JsString) : Prop :=
  ∃ before after, keys = before ++ pattern :: after ∧ (∃ text, Fits pattern key text) ∧
    (∀ other ∈ before, ∀ text, Fits other key text → other.idxOf star < pattern.idxOf star) ∧
    ∀ other ∈ after, ∀ text, Fits other key text → other.idxOf star ≤ pattern.idxOf star

/-- The first listed of the longest prefix stands for some text, and no key of that prefix that fits
is longer. -/
def FirstIsBest (keys : List JsString) (key : JsString) : Prop :=
  ∀ pattern text, FirstOfLongest keys key pattern → Fits pattern key text →
    text ≠ [] ∧ ∀ other ∈ keys, ∀ text' ≠ [], Fits other key text' →
      other.idxOf star = pattern.idxOf star → other.length ≤ pattern.length

variable {key pattern other text text' : JsString}

theorem fits_start {start : JsString} (suffix : JsString) (plain : star ∉ start) :
    (start ++ star :: suffix).idxOf star = start.length := by
  rw [List.idxOf_append_of_notMem plain, List.idxOf_cons_self, Nat.add_zero]

theorem Fits.text_unique (fits : Fits pattern key text) (fits' : Fits pattern key text') :
    text = text' := by
  obtain ⟨start, suffix, plain, -, rfl, rfl⟩ := fits
  obtain ⟨start', suffix', plain', -, same, whole⟩ := fits'
  have lengths : start.length = start'.length := by
    rw [← fits_start suffix plain, same, fits_start _ plain']
  obtain ⟨rfl, rest⟩ := List.append_inj same lengths
  obtain rfl := List.tail_eq_of_cons_eq rest
  simpa using whole

/-- Two patterns that fit one key and that neither precedes the other are one. -/
theorem Fits.pattern_unique (fits : Fits pattern key text) (fits' : Fits other key text')
    (behind : ¬Before other pattern) (ahead : ¬Before pattern other) : pattern = other := by
  obtain ⟨start, suffix, plain, -, rfl, rfl⟩ := fits
  obtain ⟨start', suffix', plain', -, rfl, whole⟩ := fits'
  simp only [Before, fits_start _ plain, fits_start _ plain', List.length_append, List.length_cons]
    at behind ahead
  have starts : start.length = start'.length := by omega
  have suffixes : suffix.length = suffix'.length := by omega
  obtain ⟨front, rfl⟩ := List.append_inj' whole suffixes
  obtain ⟨rfl, -⟩ := List.append_inj front starts
  rfl

theorem NodeTargets.unique {exports : Map JsString (List JsString)} {left right : List JsString}
    (selected : NodeTargets exports key left) (selected' : NodeTargets exports key right) :
    left = right := by
  cases selected with
  | exact there =>
    cases selected' with
    | exact there' => exact Option.some.inj (there.symm.trans there')
    | pattern absent => cases absent.symm.trans there
    | nothing absent => cases absent.symm.trans there
  | @pattern e text absent listed fits some_ first =>
    have member : e.1 ∈ exports.keys := List.mem_map_of_mem listed
    cases selected' with
    | exact there => cases absent.symm.trans there
    | @pattern f text' _ listed' fits' some' first' =>
      have member' : f.1 ∈ exports.keys := List.mem_map_of_mem listed'
      have keys : e.1 = f.1 := fits.pattern_unique fits' (first _ member' _ some' fits')
        (first' _ member _ some_ fits)
      have entries : e.2 = f.2 := by
        have targets := lookup_of_mem exports.distinct listed
        rw [keys, lookup_of_mem exports.distinct listed'] at targets
        exact (Option.some.inj targets).symm
      rw [keys] at fits
      rw [fits.text_unique fits', entries]
    | nothing _ none_ => exact absurd fits (none_ _ member _ some_)
  | nothing absent none_ =>
    cases selected' with
    | exact there => cases absent.symm.trans there
    | pattern _ listed fits some_ => exact absurd fits (none_ _ (List.mem_map_of_mem listed) _ some_)
    | nothing => rfl

private theorem patternMatch_plain {e : JsString × List JsString} (plain : star ∉ e.1) :
    patternMatch key e = none := by
  have none_ : e.1.dropWhile (fun u => decide (u ≠ star)) = [] := by
    refine List.dropWhile_eq_nil_iff.mpr fun u listed => decide_eq_true ?_
    rintro rfl
    exact plain listed
  rw [patternMatch, List.span_eq_takeWhile_dropWhile, none_]

private theorem patternMatch_starred {start suffix : JsString} (targets : List JsString)
    (plain : star ∉ start) :
    patternMatch key (start ++ star :: suffix, targets) =
      if star ∈ suffix then none
      else if key.length < start.length + suffix.length ∨ !start.isPrefixOf key ∨
        !suffix.isSuffixOf key then none
      else some ⟨start, (key.take (key.length - suffix.length)).drop start.length, targets⟩ := by
  have all (u : UInt16) (listed : u ∈ start) : decide (u ≠ star) = true := by
    refine decide_eq_true ?_
    rintro rfl
    exact plain listed
  have parts : (start ++ star :: suffix).span (fun u => decide (u ≠ star)) =
      (start, star :: suffix) := by
    rw [List.span_eq_takeWhile_dropWhile, List.takeWhile_append_of_pos all,
      List.dropWhile_append_of_pos all]
    simp
  rw [patternMatch, parts]

private theorem middle (start text suffix : JsString) :
    ((start ++ text ++ suffix).take ((start ++ text ++ suffix).length - suffix.length)).drop
      start.length = text := by
  rw [@List.length_append _ (start ++ text) suffix, Nat.add_sub_cancel, List.take_left', List.drop_left']
  · rfl
  · rfl

theorem fits_of_patternMatch {e : JsString × List JsString} {c : PatternMatch}
    (found : patternMatch key e = some c) :
    Fits e.1 key c.filling ∧ c.start.length = e.1.idxOf star ∧ c.targets = e.2 := by
  obtain ⟨pattern, targets⟩ := e
  by_cases starred : star ∈ pattern
  · obtain ⟨start, suffix, rfl, plain⟩ := List.eq_append_cons_of_mem starred
    rw [patternMatch_starred targets plain] at found
    split at found
    · cases found
    next plain' =>
    split at found
    · cases found
    next around =>
    cases found
    simp only [not_or, Nat.not_lt, Bool.not_eq_true', Bool.not_eq_false, List.isPrefixOf_iff_prefix,
      List.isSuffixOf_iff_suffix] at around
    obtain ⟨long, ⟨rest, rfl⟩, ends⟩ := around
    have ends : suffix <:+ rest := by
      refine List.suffix_of_suffix_length_le ends (List.suffix_append start rest) ?_
      rw [List.length_append] at long
      omega
    obtain ⟨text, rfl⟩ := ends
    refine ⟨⟨start, suffix, plain, plain', rfl, ?_⟩, (fits_start suffix plain).symm, rfl⟩
    rw [← List.append_assoc, middle]
  · rw [patternMatch_plain starred] at found
    cases found

theorem patternMatch_of_fits {e : JsString × List JsString} (fits : Fits e.1 key text) :
    ∃ c, patternMatch key e = some c ∧ c.filling = text := by
  obtain ⟨pattern, targets⟩ := e
  obtain ⟨start, suffix, plain, plain', rfl, rfl⟩ := fits
  refine ⟨⟨start, text, targets⟩, ?_, rfl⟩
  rw [patternMatch_starred targets plain, if_neg plain', if_neg, middle]
  have before : start <+: start ++ text ++ suffix := by
    rw [List.append_assoc]
    exact List.prefix_append ..
  have after : suffix <:+ start ++ text ++ suffix := List.suffix_append ..
  have long : start.length + suffix.length ≤ (start ++ text ++ suffix).length := by
    simp only [List.length_append]
    omega
  simp only [not_or, Nat.not_lt, Bool.not_eq_true', Bool.not_eq_false, List.isPrefixOf_iff_prefix,
    List.isSuffixOf_iff_suffix]
  exact ⟨long, before, after⟩

/-- What the scan keeps is the first listed of the patterns of the longest prefix. -/
theorem firstOfLongest_of_leads {entries : List (JsString × List JsString)} {c : PatternMatch}
    (leads : Leads (patternMatch key) (·.start.length) entries c) :
    ∃ e ∈ entries, Fits e.1 key c.filling ∧ c.targets = e.2 ∧
      FirstOfLongest (entries.map Prod.fst) key e.1 := by
  obtain ⟨before, e, after, rfl, found, earlier, later⟩ := leads
  obtain ⟨fits, start, targets⟩ := fits_of_patternMatch found
  refine ⟨e, by simp, fits, targets, before.map Prod.fst, after.map Prod.fst, by simp, ⟨_, fits⟩,
    fun other listed text fits' => ?_, fun other listed text fits' => ?_⟩
  · obtain ⟨f, member, rfl⟩ := List.mem_map.mp listed
    obtain ⟨d, found', -⟩ := patternMatch_of_fits fits'
    rw [← start, ← (fits_of_patternMatch found').2.1]
    exact earlier f member d found'
  · obtain ⟨f, member, rfl⟩ := List.mem_map.mp listed
    obtain ⟨d, found', -⟩ := patternMatch_of_fits fits'
    rw [← start, ← (fits_of_patternMatch found').2.1]
    exact later f member d found'

theorem leads_of_firstOfLongest {entries : List (JsString × List JsString)}
    (first : FirstOfLongest (entries.map Prod.fst) key pattern) :
    ∃ e ∈ entries, e.1 = pattern ∧ ∃ c, Leads (patternMatch key) (·.start.length) entries c ∧
      Fits pattern key c.filling ∧ c.targets = e.2 := by
  obtain ⟨front, rear, parts, ⟨text, fits⟩, earlier, later⟩ := first
  obtain ⟨before, rest, rfl, rfl, same⟩ := List.map_eq_append_iff.mp parts
  obtain ⟨e, after, rfl, rfl, rfl⟩ := List.map_eq_cons_iff.mp same
  obtain ⟨c, found, -⟩ := patternMatch_of_fits fits
  obtain ⟨fits, start, targets⟩ := fits_of_patternMatch found
  refine ⟨e, by simp, rfl, c, ⟨before, e, after, rfl, found, fun f listed d found' => ?_,
    fun f listed d found' => ?_⟩, fits, targets⟩
  · obtain ⟨fits', start', -⟩ := fits_of_patternMatch found'
    simp only [start, start']
    exact earlier f.1 (List.mem_map_of_mem listed) _ fits'
  · obtain ⟨fits', start', -⟩ := fits_of_patternMatch found'
    simp only [start, start']
    exact later f.1 (List.mem_map_of_mem listed) _ fits'

theorem FirstOfLongest.upper {keys : List JsString} (first : FirstOfLongest keys key pattern)
    (listed : other ∈ keys) (fits : Fits other key text) : other.idxOf star ≤ pattern.idxOf star := by
  obtain ⟨before, after, rfl, -, earlier, later⟩ := first
  rcases List.mem_append.mp listed with old | new
  · exact Nat.le_of_lt (earlier other old text fits)
  · rcases List.mem_cons.mp new with rfl | new
    · exact Nat.le_refl _
    · exact later other new text fits

/-! ### The choice is Node's -/

variable {exports : Map JsString (List JsString)}

private theorem exportedTargets_node (best : key ∈ exports.keys ∨ FirstIsBest exports.keys key) :
    NodeTargets exports key (exportedTargets exports key) := by
  unfold exportedTargets
  cases exact_ : exports.get key with
  | some targets => exact .exact exact_
  | none =>
    have absent : key ∉ exports.keys := lookup_none.mp exact_
    have best := best.resolve_left absent
    cases kept : firstLargest (patternMatch key) (·.start.length) exports.entries with
    | none =>
      refine .nothing exact_ fun pattern listed text _ fits => ?_
      obtain ⟨e, member, rfl⟩ := List.mem_map.mp listed
      obtain ⟨c, found, -⟩ := patternMatch_of_fits fits
      rw [firstLargest_none.mp kept e member] at found
      cases found
    | some c =>
      obtain ⟨e, listed, fits, targets, first⟩ := firstOfLongest_of_leads (leads_of_firstLargest kept)
      obtain ⟨some_, longest⟩ := best e.1 c.filling first fits
      have filled : c.filled = fill c.filling e.2 := by rw [PatternMatch.filled, fill, targets]
      show NodeTargets exports key c.filled
      rw [filled]
      refine .pattern exact_ listed fits some_ fun other listed' text' some' fits' before => ?_
      have upper := first.upper listed' fits'
      rcases before with longer | ⟨same, longer⟩
      · omega
      · have shorter := longest other listed' text' some' fits' same
        omega

/-- Only `pattern` has a target, of one letter. -/
private def marked (exports : Map JsString (List JsString)) (pattern : JsString) :
    Map JsString (List JsString) where
  entries := exports.entries.map fun e => (e.1, if e.1 = pattern then [[codeUnit 'm']] else [])
  distinct := by
    rw [List.map_map]
    exact exports.distinct

private theorem marked_keys (pattern : JsString) : (marked exports pattern).keys = exports.keys := by
  rw [Map.keys, marked, List.map_map]
  rfl

private theorem marked_get {pattern : JsString} (absent : key ∉ exports.keys) :
    (marked exports pattern).get key = none := by
  refine lookup_none.mpr ?_
  rw [← Map.keys, marked_keys]
  exact absent

private theorem marked_targets {e : JsString × List JsString}
    (listed : e ∈ (marked exports pattern).entries) (here : e.1 = pattern) :
    e.2 = [[codeUnit 'm']] := by
  obtain ⟨f, -, rfl⟩ := List.mem_map.mp listed
  exact if_pos here

private theorem marked_others {e : JsString × List JsString}
    (listed : e ∈ (marked exports pattern).entries) (other : e.1 ≠ pattern) : e.2 = [] := by
  obtain ⟨f, -, rfl⟩ := List.mem_map.mp listed
  exact if_neg other

private theorem exportedTargets_marked (absent : key ∉ exports.keys)
    (first : FirstOfLongest exports.keys key pattern) :
    exportedTargets (marked exports pattern) key = [[codeUnit 'm']] := by
  have none_ : (marked exports pattern).get key = none := marked_get absent
  rw [← marked_keys pattern] at first
  obtain ⟨e, listed, rfl, c, leads, -, targets⟩ := leads_of_firstOfLongest first
  have only := marked_targets listed rfl
  rw [exportedTargets, none_, firstLargest_some.mpr leads]
  simp only [PatternMatch.filled, targets, only]
  rfl

/-- The targets are those Node selects, whatever the keys export, just when the subpath is a key or
the first listed pattern of the longest prefix is the one Node takes. -/
theorem exportedTargets_node_iff (exports : Map JsString (List JsString)) (key : JsString) :
    (∀ same : Map JsString (List JsString), same.keys = exports.keys →
      NodeTargets same key (exportedTargets same key)) ↔
    key ∈ exports.keys ∨ FirstIsBest exports.keys key := by
  constructor
  · intro node
    by_cases absent : key ∈ exports.keys
    · exact .inl absent
    refine .inr fun pattern text first fits => ?_
    have selected := node _ (marked_keys pattern)
    rw [exportedTargets_marked absent first] at selected
    generalize shown : [[codeUnit 'm']] = targets at selected
    cases selected with
    | exact there =>
      rw [marked_get absent] at there
      cases there
    | @pattern e text' _ listed fits' some_ first' =>
      -- the only key with a target is the one the scan keeps
      have here : e.1 = pattern := by
        by_contra other
        rw [marked_others listed other] at shown
        cases shown
      rw [here] at fits' first'
      rw [fits.text_unique fits']
      refine ⟨some_, fun other listed' text some' fits same => ?_⟩
      have behind := first' other (by rwa [marked_keys]) text some' fits
      exact Nat.not_lt.mp fun longer => behind (.inr ⟨same, longer⟩)
    | nothing absent' none_ => cases shown
  · intro best same keys
    rw [← keys] at best
    exact exportedTargets_node best

def scriptsLast : Map JsString (List JsString) where
  entries := [(utf16 "./*", [utf16 "src/*.ts"]), (utf16 "./*.js", [utf16 "lib/*.js"])]
  distinct := by decide +kernel

/-- Of two patterns of one prefix the scan keeps the one listed first, also where the other is
longer: `./x.js` takes the targets of `./*`, and Node takes those of `./*.js`. -/
theorem scriptsLast_shorter_kept :
    exportedTargets scriptsLast (utf16 "./x.js") = [utf16 "src/x.js.ts"] ∧
      ¬NodeTargets scriptsLast (utf16 "./x.js") [utf16 "src/x.js.ts"] := by
  refine ⟨by decide +kernel, fun node => ?_⟩
  generalize shown : [utf16 "src/x.js.ts"] = targets at node
  cases node with
  | exact there =>
    have none_ : scriptsLast.get (utf16 "./x.js") = none := by decide +kernel
    rw [none_] at there
    cases there
  | @pattern e text _ listed fits _ first =>
    have scripts : Fits (utf16 "./*.js") (utf16 "./x.js") (utf16 "x") :=
      ⟨utf16 "./", utf16 ".js", by decide +kernel, by decide +kernel, by decide +kernel,
        by decide +kernel⟩
    have later := first _ (by decide +kernel) (utf16 "x") (by decide +kernel) scripts
    simp only [scriptsLast, List.mem_cons, List.not_mem_nil, or_false] at listed
    rcases listed with rfl | rfl
    · exact later (.inr (by decide +kernel))
    · have heads : [utf16 "src/x.js.ts"].map List.head? = [some (codeUnit 'l')] := by
        rw [shown]
        rfl
      exact absurd heads (by decide +kernel)
  | nothing => cases shown

end CodeGraph.Resolution
