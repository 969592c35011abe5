import CodeGraph.Foundation.Tails
import CodeGraph.Mcp.ClientHello

/-!
# Handing a connection over

However the bytes of a client are cut into chunks and whenever the timer fires, the lines that the
transport passes on are the lines of the stream, but for a hello that came in time.
-/
namespace CodeGraph.Mcp.ClientHello

open Text StringDecoder

variable {chunks before : List Bytes} {chunk line rest stream : Bytes} {events : List Event}

/-! ### What the client sends -/

/-- What has happened on a connection: the bytes that have arrived, and the chunks of them that
arrived before the timer fired. -/
structure History where
  stream : Bytes
  inTime : List Bytes
  late : Bool
  closed : Bool

def History.opened : History := ⟨[], [], false, false⟩

def History.step (h : History) : Event → History
  | .data chunk =>
    if h.closed then h
    else { h with
      stream := h.stream ++ chunk
      inTime := if h.late then h.inTime else h.inTime ++ [chunk] }
  | .timeout => { h with late := true }
  | .attach => h
  | .close => { h with closed := true }

def history (events : List Event) : History := events.foldl History.step .opened

/-- The whole first line is in the chunks and is a client hello, and what came before the chunk
that ends it was within the limit. -/
def HelloInTime (chunks : List Bytes) : Prop :=
  ∃ before chunk after line rest, chunks = before ++ chunk :: after ∧
    before.flatten ++ chunk = line ++ 0x0A :: rest ∧ 0x0A ∉ line ∧ 0x0A ∉ before.flatten ∧
    before.flatten.length ≤ maxHelloLineBytes ∧ isClientHello line = true

def linesPassed (lines : List Bytes) : List JsString :=
  lines.filterMap fun line => handleLine (decode line)

private theorem HelloInTime.first (hello : HelloInTime chunks) : 0x0A ∈ chunks.flatten := by
  obtain ⟨before, chunk, after, line, rest, rfl, whole, -⟩ := hello
  rw [List.flatten_append, List.flatten_cons, ← List.append_assoc, whole]
  simp

private theorem helloInTime_concat (chunk : Bytes) (none_ : 0x0A ∉ chunks.flatten) :
    HelloInTime (chunks ++ [chunk]) ↔
      chunks.flatten.length ≤ maxHelloLineBytes ∧ ∃ line rest,
        chunks.flatten ++ chunk = line ++ 0x0A :: rest ∧ 0x0A ∉ line ∧ isClientHello line = true := by
  constructor
  · rintro ⟨before, last, after, line, rest, whole, ends, first, open_, limit, hello⟩
    rcases Queues.concat_cases whole with ⟨rfl, rfl⟩ | ⟨after, rfl⟩
    · exact ⟨limit, line, rest, ends, first, hello⟩
    · -- then an earlier chunk ends the line
      exact absurd (HelloInTime.first ⟨before, last, after, line, rest, rfl, ends, first, open_,
        limit, hello⟩) none_
  · rintro ⟨limit, line, rest, ends, first, hello⟩
    exact ⟨chunks, chunk, [], line, rest, rfl, ends, first, none_, limit, hello⟩

private theorem helloInTime_past
    (past : 0x0A ∈ chunks.flatten ∨ maxHelloLineBytes < chunks.flatten.length) :
    HelloInTime (chunks ++ [chunk]) ↔ HelloInTime chunks := by
  constructor
  · rintro ⟨before, last, after, line, rest, whole, ends, first, open_, limit, hello⟩
    rcases Queues.concat_cases whole with ⟨rfl, rfl⟩ | ⟨after, rfl⟩
    · rcases past with listed | long
      · exact absurd listed open_
      · omega
    · exact ⟨before, last, after, line, rest, rfl, ends, first, open_, limit, hello⟩
  · rintro ⟨before, last, after, line, rest, rfl, ends, first, open_, limit, hello⟩
    exact ⟨before, last, after ++ [chunk], line, rest, by simp, ends, first, open_, limit, hello⟩

/-- The transport has read `bytes`. -/
structure Transport.Read (bytes : Bytes) (t : Transport) : Prop where
  written : ∃ text, Written bytes text t.held ∧ t.buffer = Lines.remainder newline text
  passed : t.passed = linesPassed (Lines.complete 0x0A bytes)

theorem Transport.fresh_read : Transport.fresh.Read [] where
  written := ⟨[], written_nil, rfl⟩
  passed := rfl

private theorem linesPassed_eq (lines : List Bytes) :
    linesPassed lines = (lines.map decode).filterMap handleLine := by
  rw [List.filterMap_map]
  rfl

theorem Transport.Read.onData {bytes : Bytes} {t : Transport} (read : t.Read bytes) (chunk : Bytes) :
    (t.onData chunk).Read (bytes ++ chunk) := by
  obtain ⟨⟨text, written, buffer⟩, passed⟩ := read
  have next := write_written written chunk
  have lines := next.lines
  rw [Lines.complete_append, written.lines] at lines
  have drained := Lines.drain_eq newline (Nat.le_refl (t.buffer ++ (write t.held chunk).1).length)
  rw [buffer, ← Lines.remainder_append] at drained
  have step : t.onData chunk = ⟨(write t.held chunk).2,
      Lines.remainder newline (text ++ (write t.held chunk).1),
      t.passed ++ (Lines.complete newline
        (Lines.remainder newline text ++ (write t.held chunk).1)).filterMap handleLine⟩ := by
    rw [Transport.onData, buffer]
    dsimp only
    rw [drained]
  rw [step]
  constructor
  · exact ⟨_, next, rfl⟩
  · rw [linesPassed_eq, ← lines, List.filterMap_append, ← linesPassed_eq, passed]

theorem Transport.Read.waiting {bytes : Bytes} {t : Transport} (read : t.Read bytes)
    (waiting : List Bytes) :
    (waiting.foldl Transport.onData t).Read (bytes ++ waiting.flatten) := by
  induction waiting generalizing bytes t with
  | nil => rwa [List.flatten_nil, List.append_nil]
  | cons chunk waiting ih =>
    rw [List.foldl_cons, List.flatten_cons, ← List.append_assoc]
    exact ih (read.onData chunk)

/-! ### The connection -/

/-- All of `rest` is waiting, or read by the transport. -/
def ReadSoFar (rest : Bytes) (waiting : List Bytes) : Option Transport → Prop
  | none => waiting.flatten = rest
  | some t => waiting = [] ∧ t.Read rest

def ConsumedHello (inTime : List Bytes) (consumed : Bytes) : Prop :=
  (consumed = [] ∧ ¬HelloInTime inTime) ∨
    (HelloInTime inTime ∧ ∃ line, consumed = line ++ [0x0A] ∧ 0x0A ∉ line)

inductive Holds : History → Connection → Prop
  | reading (chunks inTime : List Bytes) (stream : Bytes) (bytes : chunks.flatten = stream)
      (on_time : inTime.flatten = stream) (first : 0x0A ∉ stream)
      (limit : stream.length ≤ maxHelloLineBytes) :
      Holds ⟨stream, inTime, false, false⟩ ⟨.reading chunks stream.length, [], none, false⟩
  | settled (h : History) (peers : Peers) (consumed putBack rest : Bytes) (waiting : List Bytes)
      (transport : Option Transport) (parts : h.stream = consumed ++ rest) (back : putBack <+: rest)
      (hello : ConsumedHello h.inTime consumed)
      (final : h.late = true ∨ 0x0A ∈ h.inTime.flatten ∨
        maxHelloLineBytes < h.inTime.flatten.length)
      (read : ReadSoFar rest waiting transport) :
      Holds h ⟨.settled peers consumed putBack, waiting, transport, h.closed⟩
  | ended (h : History) (shut : h.closed = true) :
      Holds h ⟨.settled .unknown h.stream [], [], none, true⟩

private theorem unshift_settled (peers : Peers) (consumed putBack : Bytes) :
    (Reader.settled peers consumed putBack).unshift.flatten = putBack := by
  rw [Reader.unshift]
  split
  · next none_ => rw [List.isEmpty_iff.mp none_, List.flatten_nil]
  · exact List.flatten_singleton

private theorem reading_data {inTime : List Bytes} (bytes : chunks.flatten = stream)
    (on_time : inTime.flatten = stream) (first : 0x0A ∉ stream)
    (limit : stream.length ≤ maxHelloLineBytes) :
    Holds ⟨stream ++ chunk, inTime ++ [chunk], false, false⟩
      (step ⟨.reading chunks stream.length, [], none, false⟩ (.data chunk)) := by
  have all : (if (chunks ++ [chunk]).length = 1 then chunk else (chunks ++ [chunk]).flatten) =
      stream ++ chunk := by
    split
    · next one =>
      have none_ : chunks = [] := by simpa using one
      rw [← bytes, none_, List.flatten_nil, List.nil_append]
    · rw [List.flatten_append, bytes, List.flatten_singleton]
  have on_time_all : (inTime ++ [chunk]).flatten = stream ++ chunk := by
    rw [List.flatten_append, on_time, List.flatten_singleton]
  have decides := helloInTime_concat chunk (by rwa [on_time])
  rw [on_time] at decides
  change Holds _ ⟨_, (Reader.onData chunk (.reading chunks stream.length)).unshift, none, false⟩
  rw [Reader.onData]
  simp only [all, ← List.length_append]
  by_cases listed : 0x0A ∈ stream ++ chunk
  · obtain ⟨line, rest, whole, first_line⟩ := List.eq_append_cons_of_mem listed
    have taken : (stream ++ chunk).take line.length = line := by rw [whole, List.take_left]
    have past : 0x0A ∈ (inTime ++ [chunk]).flatten := by rwa [on_time_all]
    rw [show (stream ++ chunk).idxOf? 0x0A = some line.length by
      rw [whole, Lines.idxOf?_line first_line]]
    simp only [taken]
    cases parsed : parseClientHelloLine (decode line) with
    | none =>
      refine .settled ⟨_, _, false, false⟩ _ _ _ (stream ++ chunk) _ none rfl (List.prefix_refl _)
        (Or.inl ⟨rfl, fun hello => ?_⟩) (Or.inr (Or.inl past)) (unshift_settled _ _ _)
      obtain ⟨-, line', rest', whole', first_line', is_hello⟩ := decides.mp hello
      have same := congrArg (Lines.complete 0x0A) (whole.symm.trans whole')
      rw [Lines.complete_line first_line, Lines.complete_line first_line'] at same
      obtain ⟨rfl, -⟩ := List.cons.inj same
      rw [isClientHello, parsed] at is_hello
      exact absurd is_hello (by decide)
    | some peers =>
      refine .settled ⟨_, _, false, false⟩ _ _ _ ((stream ++ chunk).drop (line.length + 1)) _ none
        (List.take_append_drop _ _).symm (List.prefix_refl _) (Or.inr ⟨?_, line, ?_, first_line⟩)
        (Or.inr (Or.inl past)) (unshift_settled _ _ _)
      · exact decides.mpr ⟨limit, line, rest, whole, first_line, by rw [isClientHello, parsed]; rfl⟩
      · rw [whole, List.append_cons, List.take_left' (by simp)]
  · rw [List.idxOf?_eq_none_iff.mpr listed]
    dsimp only
    split
    · next long =>
      -- too long to be a hello
      refine .settled ⟨_, _, false, false⟩ _ _ _ (stream ++ chunk) _ none rfl (List.prefix_refl _)
        (Or.inl ⟨rfl, fun hello => listed (on_time_all ▸ hello.first)⟩)
        (Or.inr (Or.inr (by rwa [on_time_all]))) (unshift_settled _ _ _)
    · next short =>
      exact .reading [stream ++ chunk] _ _ List.flatten_singleton on_time_all listed
        (Nat.not_lt.mp short)

private theorem reading_timeout {inTime : List Bytes} (bytes : chunks.flatten = stream)
    (on_time : inTime.flatten = stream) (first : 0x0A ∉ stream) :
    Holds ⟨stream, inTime, true, false⟩
      (step ⟨.reading chunks stream.length, [], none, false⟩ .timeout) := by
  change Holds _ ⟨.settled .unknown [] chunks.flatten, _, none, false⟩
  rw [bytes]
  refine .settled ⟨_, _, true, false⟩ _ _ _ stream _ none rfl (List.prefix_refl _)
    (Or.inl ⟨rfl, fun hello => first (on_time ▸ hello.first)⟩) (Or.inl rfl) ?_
  rw [ReadSoFar, ← bytes]
  exact unshift_settled _ _ _

private theorem consumedHello_data {h : History} {consumed : Bytes}
    (final : h.late = true ∨ 0x0A ∈ h.inTime.flatten ∨ maxHelloLineBytes < h.inTime.flatten.length)
    (hello : ConsumedHello h.inTime consumed) :
    ConsumedHello (if h.late then h.inTime else h.inTime ++ [chunk]) consumed := by
  cases late : h.late with
  | true => rwa [if_pos rfl]
  | false =>
    rw [late] at final
    rw [if_neg Bool.false_ne_true, ConsumedHello, helloInTime_past (final.resolve_left (by decide))]
    exact hello

private theorem final_data {h : History}
    (final : h.late = true ∨ 0x0A ∈ h.inTime.flatten ∨ maxHelloLineBytes < h.inTime.flatten.length) :
    h.late = true ∨ 0x0A ∈ (if h.late then h.inTime else h.inTime ++ [chunk]).flatten ∨
      maxHelloLineBytes < (if h.late then h.inTime else h.inTime ++ [chunk]).flatten.length := by
  cases late : h.late with
  | true => exact Or.inl rfl
  | false =>
    rw [late] at final
    rw [if_neg Bool.false_ne_true, List.flatten_append, List.length_append, List.mem_append]
    rcases final.resolve_left (by decide) with listed | long
    · exact Or.inr (Or.inl (Or.inl listed))
    · exact Or.inr (Or.inr (by omega))

private theorem settled_step {h : History} {peers : Peers} {consumed putBack : Bytes}
    {waiting : List Bytes} {transport : Option Transport} (opened : h.closed = false)
    (parts : h.stream = consumed ++ rest) (back : putBack <+: rest)
    (hello : ConsumedHello h.inTime consumed)
    (final : h.late = true ∨ 0x0A ∈ h.inTime.flatten ∨ maxHelloLineBytes < h.inTime.flatten.length)
    (read : ReadSoFar rest waiting transport) (event : Event) :
    Holds (h.step event) (step ⟨.settled peers consumed putBack, waiting, transport, false⟩ event) := by
  obtain ⟨stream, inTime, late, closed⟩ := h
  obtain rfl : closed = false := opened
  obtain rfl : stream = consumed ++ rest := parts
  cases event with
  | data chunk =>
    have parts_next : consumed ++ rest ++ chunk = consumed ++ (rest ++ chunk) := List.append_assoc ..
    have back_next := back.trans (List.prefix_append rest chunk)
    cases transport with
    | none =>
      exact Holds.settled ⟨consumed ++ rest ++ chunk, _, late, false⟩ peers consumed putBack _
        (waiting ++ [chunk]) none parts_next back_next (consumedHello_data final hello)
        (final_data final) (by rw [ReadSoFar, List.flatten_append, read, List.flatten_singleton])
    | some t =>
      exact Holds.settled ⟨consumed ++ rest ++ chunk, _, late, false⟩ peers consumed putBack _
        waiting (some (t.onData chunk)) parts_next back_next (consumedHello_data final hello)
        (final_data final) ⟨read.1, read.2.onData chunk⟩
  | timeout =>
    have kept := Holds.settled ⟨consumed ++ rest, inTime, true, false⟩ peers consumed putBack rest
      waiting transport rfl back hello (Or.inl rfl) read
    cases transport <;> exact kept
  | attach =>
    cases transport with
    | none =>
      have fresh := Transport.fresh_read.waiting waiting
      rw [List.nil_append, read] at fresh
      exact Holds.settled ⟨consumed ++ rest, inTime, late, false⟩ peers consumed putBack rest []
        (some _) rfl back hello final ⟨rfl, fresh⟩
    | some t =>
      exact Holds.settled ⟨consumed ++ rest, inTime, late, false⟩ peers consumed putBack rest waiting
        (some t) rfl back hello final read
  | close =>
    exact Holds.settled ⟨consumed ++ rest, inTime, late, true⟩ peers consumed putBack rest waiting
      transport rfl back hello final read

private theorem closed_step {h : History} (shut : h.closed = true) (event : Event) :
    (h.step event).stream = h.stream ∧ (h.step event).inTime = h.inTime ∧
      (h.step event).closed = true ∧ (h.late = true → (h.step event).late = true) := by
  cases event <;> simp [History.step, shut]

theorem Holds.step {h : History} {c : Connection} (holds : Holds h c) (event : Event) :
    Holds (h.step event) (step c event) := by
  cases holds with
  | reading chunks inTime stream bytes on_time first limit =>
    cases event with
    | data chunk => exact reading_data bytes on_time first limit
    | timeout => exact reading_timeout bytes on_time first
    | attach => exact .reading chunks inTime stream bytes on_time first limit
    | close =>
      have ended := Holds.ended ⟨stream, inTime, false, true⟩ rfl
      rwa [← bytes] at ended ⊢
  | settled _ peers consumed putBack rest waiting transport parts back hello final read =>
    cases shut : h.closed with
    | false => exact settled_step shut parts back hello final read event
    | true =>
      obtain ⟨stream, inTime, closed, late⟩ := closed_step shut event
      have kept := Holds.settled (h.step event) peers consumed putBack rest waiting transport
        (stream ▸ parts) back (inTime ▸ hello) (by rw [inTime]; exact final.imp_left late) read
      rwa [closed] at kept
  | ended _ shut =>
    obtain ⟨stream, -, closed, -⟩ := closed_step shut event
    have kept := Holds.ended (h.step event) closed
    rwa [stream] at kept

theorem run_holds (events : List Event) : Holds (history events) (run events) := by
  rw [history, run]
  have opened : Holds .opened .opened :=
    .reading [] [] [] rfl rfl List.not_mem_nil (Nat.zero_le _)
  generalize History.opened = h at opened
  generalize Connection.opened = c at opened
  induction events generalizing h c with
  | nil => exact opened
  | cons event events ih => exact ih _ _ (opened.step event)

/-- What the hello reader consumes and hands back is the start of the stream, and the transport
passes on the lines of the stream, without the first if that is a hello that came in time. -/
theorem lines_handed_over (events : List Event) :
    (∀ peers consumed putBack, (run events).reader = .settled peers consumed putBack →
      consumed ++ putBack <+: (history events).stream) ∧
    ∀ t, (run events).transport = some t →
      (HelloInTime (history events).inTime →
        t.passed = linesPassed (Lines.complete 0x0A (history events).stream).tail) ∧
      (¬HelloInTime (history events).inTime →
        t.passed = linesPassed (Lines.complete 0x0A (history events).stream)) := by
  have holds := run_holds events
  generalize history events = h at holds
  generalize run events = c at holds
  cases holds with
  | reading =>
    exact ⟨fun _ _ _ settled => (nomatch settled), fun _ attached => (nomatch attached)⟩
  | ended _ shut =>
    constructor
    · rintro peers consumed putBack ⟨⟩
      simp only [List.append_nil, List.prefix_refl]
    · exact fun _ attached => nomatch attached
  | settled _ peers consumed putBack rest waiting transport parts back hello final read =>
    constructor
    · rintro _ _ _ ⟨⟩
      rw [parts, List.prefix_append_right_inj]
      exact back
    · rintro t rfl
      have passed := read.2.passed
      rcases hello with ⟨rfl, not_hello⟩ | ⟨in_time, line, rfl, first⟩
      · rw [List.nil_append] at parts
        rw [parts]
        exact ⟨fun in_time => absurd in_time not_hello, fun _ => passed⟩
      · rw [parts, List.append_assoc, List.singleton_append, Lines.complete_line first, List.tail_cons]
        exact ⟨fun _ => passed, fun not_hello => absurd in_time not_hello⟩

end CodeGraph.Mcp.ClientHello
