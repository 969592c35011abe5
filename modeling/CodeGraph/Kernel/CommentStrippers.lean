import CodeGraph.Kernel.JsBytes

/-!
The comment strippers of the native side (`cfnptr/strip.rs`, `strip_ruby_comments` of
`resolve/ruby_paths.rs`).
-/
namespace CodeGraph.Kernel.CommentStrippers

open JsBytes JsText Text

section Parts

variable {α : Type} [DecidableEq α]

def stringRest (quote backslash newline : α) (spansLines : Bool) : List α → Nat
  | [] => 0
  | [u] => if u = quote then 1 else if spansLines = false ∧ u = newline then 0 else 1
  | u :: v :: rest =>
    if u = quote then 1
    else if u = backslash then 2 + stringRest quote backslash newline spansLines rest
    else if spansLines = false ∧ u = newline then 0
    else 1 + stringRest quote backslash newline spansLines (v :: rest)

def lineRest (newline : α) (rest : List α) : Nat := (rest.takeWhile (· ≠ newline)).length

def blockRest (star slash : α) : List α → Nat
  | [] => 0
  | u :: rest => if u = star ∧ rest.head? = some slash then 2 else 1 + blockRest star slash rest

end Parts

/-- One space for each UTF-16 unit. -/
def emit_blank : Bytes → Bytes
  | [] => []
  | b :: region =>
    if b = 0x0A then 0x0A :: emit_blank region
    else
      let len := if b < 0xC0 then 1 else if b < 0xE0 then 2 else if b < 0xF0 then 3 else 4
      (if len = 4 then [0x20, 0x20] else [0x20]) ++ emit_blank (region.drop (len - 1))
termination_by region => region.length
decreasing_by
  · simp
  · simp only [List.length_drop, List.length_cons]
    omega

/-- The loop of `strip_c`: `src[..copied]` is emitted. -/
def strip_cFrom (src : Bytes) : Nat → Nat → Nat → Bytes → Bytes
  | 0, copied, _, out => out ++ src.drop copied
  | fuel + 1, copied, i, out =>
    match src.drop i with
    | [] => out ++ src.drop copied
    | c :: rest =>
      let c2 := rest.headD 0
      let blank_to (stop : Nat) := out ++ slice src copied i ++ emit_blank (slice src i stop)
      if c = 0x2F ∧ c2 = 0x2A then
        let stop := i + 2 + blockRest 0x2A 0x2F (rest.drop 1)
        strip_cFrom src fuel stop stop (blank_to stop)
      else if c = 0x2F ∧ c2 = 0x2F then
        let stop := i + lineRest 0x0A (c :: rest)
        strip_cFrom src fuel stop stop (blank_to stop)
      else if c = 0x22 ∨ c = 0x60 then
        strip_cFrom src fuel copied (i + 1 + stringRest c 0x5C 0x0A (c == 0x60) rest) out
      else strip_cFrom src fuel copied (i + 1) out

def strip_c (src : Bytes) : Bytes := strip_cFrom src src.length 0 0 []

def push_blank (c : Char) : Text :=
  if c = '\n' then ['\n'] else List.replicate (charUnits c).length ' '

/-- The rest of a block comment, with the line of its `=end`. -/
def rubyBlockRest : Text → Nat
  | [] => 0
  | c :: rest =>
    let indent := (rest.takeWhile fun d => d = ' ' ∨ d = '\t').length
    if c = '\n' ∧ (rest.drop indent).take 4 = ['=', 'e', 'n', 'd'] then
      1 + indent + 4 + lineRest '\n' (rest.drop (indent + 4))
    else 1 + rubyBlockRest rest

def strip_ruby_commentsFrom : Nat → Bool → Text → Text
  | 0, _, rest => rest
  | _ + 1, _, [] => []
  | fuel + 1, atLineStart, c :: rest =>
    if atLineStart ∧ c = '=' ∧ (c :: rest).take 6 = ['=', 'b', 'e', 'g', 'i', 'n'] then
      let length := 6 + rubyBlockRest ((c :: rest).drop 6)
      let comment := (c :: rest).take length
      comment.flatMap push_blank ++
        strip_ruby_commentsFrom fuel (comment.getLast? = some '\n') ((c :: rest).drop length)
    else if c = '"' ∨ c = '\'' then
      let length := 1 + stringRest c '\\' '\n' false rest
      (c :: rest).take length ++ strip_ruby_commentsFrom fuel false ((c :: rest).drop length)
    else if c = '#' then
      let length := lineRest '\n' (c :: rest)
      ((c :: rest).take length).flatMap push_blank ++
        strip_ruby_commentsFrom fuel false ((c :: rest).drop length)
    else if c = '\n' then c :: strip_ruby_commentsFrom fuel true rest
    else if c = ' ' ∨ c = '\t' then c :: strip_ruby_commentsFrom fuel atLineStart rest
    else c :: strip_ruby_commentsFrom fuel false rest

def strip_ruby_comments (src : Text) : Text := strip_ruby_commentsFrom src.length true src

end CodeGraph.Kernel.CommentStrippers
