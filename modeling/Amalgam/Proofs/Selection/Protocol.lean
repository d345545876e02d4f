import Amalgam.Proofs.Selection.Pulls

/-!
# The protocol of pulls

What a caller can rely on who pulls a stream again and again. Every pull gives
a kept line until one gives a failure or nothing; then the stream is over, and
all later pulls give nothing and change nothing (`pull_of_lt`). What the pulls
give one by one is what the run over all lines gives (`item?_pull`).

How far a stream has read is counted by `requests`: the number of times it has
asked for a line. It has asked for the lines that are gone, and for no other
but their end (`hasRead_after`); a pull that gives a line has asked for no line
behind it (`exists_before`). Lines that have not been asked for do not matter:
two streams whose lines begin alike (`Mirror`) stay together as long as they
ask for no more than that beginning (`Mirror.after`). All of this together is
`pull_protocol`.
-/

namespace Amalgam.Selection.Stream

variable {strict : Bool} {symbols : Symbols} {lines : List String} {e e' : Stream} {m n : Nat}

/-! ## The end -/

/-- A pull that gives no line leaves a stream that is over. -/
theorem finished_of_next (h : ∀ line, e.next.item? ≠ some (.ok line)) :
    e.next.stream.finished = true := by
  cases hf : e.finished with
  | true => rw [next_of_finished hf]; exact hf
  | false =>
    have hp : Pulled e.strict { state := e.state } e.lines _ _ := pulled_pullFrom #[] e.lines rfl
    rw [next_of_going hf] at h ⊢
    generalize (pullFrom e.strict e.state #[] e.lines).stream = left at hp
    generalize (pullFrom e.strict e.state #[] e.lines).item? = item? at hp h
    cases hp with
    | kept dropped line rest split goesOn before at_ => exact absurd rfl (h line)
    | failed taken rest failure split fails before => rfl
    | ended goesOn before => rfl

theorem after_of_finished (h : e.finished = true) (n : Nat) : e.after n = e := by
  induction n with
  | zero => rfl
  | succ n ih => rw [after, ih, next_of_finished h]

theorem after_add (e : Stream) (m n : Nat) : e.after (m + n) = (e.after m).after n := by
  induction n with
  | zero => rfl
  | succ n ih => exact congrArg (fun e' : Stream => e'.next.stream) ih

/-- Once a pull has given no line, all later pulls give nothing and leave the
stream as it is. -/
theorem pull_of_lt (h : ∀ line, (e.pull n).item? ≠ some (.ok line)) (hm : n < m) :
    e.after m = (e.pull n).stream ∧ (e.pull n).stream.finished = true ∧
      e.pull m = { item? := none, stream := (e.pull n).stream, events := #[] } := by
  have hf : (e.pull n).stream.finished = true := finished_of_next h
  have hafter : e.after m = (e.pull n).stream := by
    obtain ⟨k, rfl⟩ := Nat.exists_eq_add_of_lt hm
    rw [show n + k + 1 = n + 1 + k by omega, after_add]
    exact after_of_finished hf k
  refine ⟨hafter, hf, ?_⟩
  rw [pull, hafter, next_of_finished hf]

/-- Before a pull that gives something every pull has given a line. -/
theorem exists_line_of_lt (h : (e.pull m).item? ≠ none) (hn : n < m) :
    ∃ line, (e.pull n).item? = some (.ok line) := by
  apply Classical.byContradiction
  intro hnone
  rw [(pull_of_lt (fun line hl => hnone ⟨line, hl⟩) hn).2.2] at h
  exact h rfl

/-! ## One by one -/

theorem items_concat (e : Stream) (n : Nat) :
    e.items (n + 1) = e.items n ++ (e.pull n).item?.toList := rfl

theorem length_items_le (e : Stream) (n : Nat) : (e.items n).length ≤ n := by
  induction n with
  | zero => exact Nat.le_refl 0
  | succ n ih =>
    rw [items_concat, List.length_append]
    cases (e.pull n).item? <;> simp <;> omega

theorem length_items_of_pull (h : (e.pull n).item? ≠ none) : (e.items n).length = n := by
  induction n with
  | zero => rfl
  | succ n ih =>
    obtain ⟨line, hline⟩ := exists_line_of_lt h (Nat.lt_succ_self n)
    have ih := ih (by rw [hline]; simp)
    rw [items_concat, hline, List.length_append, ih]
    rfl

/-- What a pull gives stands at its place among what all pulls give. -/
theorem getElem?_items (h : n < m) : (e.items m)[n]? = (e.pull n).item? := by
  induction m with
  | zero => omega
  | succ m ih =>
    rw [items_concat]
    rcases Nat.lt_succ_iff_lt_or_eq.mp h with hlt | rfl
    · have ih := ih hlt
      cases hitem : (e.pull n).item? with
      | some item =>
        rw [hitem] at ih
        obtain ⟨hn, -⟩ := List.getElem?_eq_some_iff.mp ih
        rw [List.getElem?_append_left hn, ih]
      | none =>
        have hnone : (e.pull m).item? = none := by
          rw [(pull_of_lt (fun line hl => by rw [hitem] at hl; cases hl) hlt).2.2]
        rw [hnone, Option.toList_none, List.append_nil, ih, hitem]
    · rw [List.getElem?_append_right (length_items_le e n)]
      cases hitem : (e.pull n).item? with
      | some item =>
        rw [length_items_of_pull (by rw [hitem]; simp), Nat.sub_self]
        rfl
      | none => rfl

/-- The pulls give one by one what the run over the lines gives: the lines it
keeps, the failure that stops it, if one does, and then nothing. -/
theorem item?_pull (strict : Bool) (symbols : Symbols) (lines : List String) (n : Nat) :
    ((start strict symbols lines).pull n).item? = (select strict symbols lines).items[n]? := by
  have hall := (items_eq_of_length_lt strict symbols
    (show lines.length < n + lines.length + 1 by omega)).1
  rw [← hall, getElem?_items (by omega)]

/-! ## How far a stream has read -/

/-- How often a pull asks for a line: once for each line that it takes, and
once more if it comes to the end of the lines. -/
def demandFrom (strict : Bool) (s : State) : List String → Nat
  | [] => 1
  | line :: lines =>
    match s.step strict line with
    | .ok { state, verdict := .drop, .. } => demandFrom strict state lines + 1
    | _ => 1

/-- How often the next pull asks for a line. A stream that is over asks for
none. -/
def demand (e : Stream) : Nat :=
  if e.finished then 0 else demandFrom e.strict e.state e.lines

/-- How often so many pulls ask for a line. -/
def requests (e : Stream) : Nat → Nat
  | 0 => 0
  | n + 1 => e.requests n + (e.after n).demand

theorem demandFrom_pos (strict : Bool) (s : State) (lines : List String) :
    0 < demandFrom strict s lines := by
  unfold demandFrom
  split
  · exact Nat.one_pos
  · split <;> omega

/-- What is left of a stream over `lines` once it has asked for a line so
often: it has asked for the lines that are gone, and for no other, unless it
has come to their end and is over. -/
def HasRead (left : Stream) (lines : List String) (count : Nat) : Prop :=
  ∃ taken, lines = taken ++ left.lines ∧
    (count = taken.length ∨ left.lines = [] ∧ left.finished = true ∧ count = taken.length + 1)

theorem hasRead_pullFrom (strict : Bool) (s : State) (events : Array Event) (lines : List String) :
    (pullFrom strict s events lines).stream.HasRead lines (demandFrom strict s lines) := by
  induction lines generalizing s events with
  | nil =>
    simp only [pullFrom]
    cases s.close strict <;> exact ⟨[], rfl, .inr ⟨rfl, rfl, rfl⟩⟩
  | cons line lines ih =>
    simp only [pullFrom, demandFrom]
    cases s.step strict line with
    | error failure => exact ⟨[line], rfl, .inl rfl⟩
    | ok t =>
      obtain ⟨state, verdict, caused⟩ := t
      cases verdict with
      | emit => exact ⟨[line], rfl, .inl rfl⟩
      | drop =>
        obtain ⟨taken, hsplit, hcount⟩ := ih state (events ++ caused)
        refine ⟨line :: taken, congrArg (line :: ·) hsplit, ?_⟩
        rw [List.length_cons]
        rcases hcount with h | ⟨hlines, hf, h⟩
        · exact .inl (congrArg (· + 1) h)
        · exact .inr ⟨hlines, hf, congrArg (· + 1) h⟩

/-- A pull that gives a line has taken the lines up to it, and asked for no
other. -/
theorem demandFrom_of_ok {s : State} {events : Array Event} {line : String}
    (h : (pullFrom strict s events lines).item? = some (.ok line)) :
    ∃ before, lines = before ++ line :: (pullFrom strict s events lines).stream.lines ∧
      demandFrom strict s lines = before.length + 1 := by
  induction lines generalizing s events with
  | nil =>
    simp only [pullFrom] at h
    cases hc : s.close strict with
    | error failure => simp [hc] at h
    | ok closing => simp [hc] at h
  | cons line' lines ih =>
    cases hs : s.step strict line' with
    | error failure => simp [pullFrom, hs] at h
    | ok t =>
      obtain ⟨state, verdict, caused⟩ := t
      cases verdict with
      | emit =>
        simp only [pullFrom, hs, demandFrom] at h ⊢
        obtain ⟨rfl⟩ := h
        exact ⟨[], rfl, rfl⟩
      | drop =>
        simp only [pullFrom, hs, demandFrom] at h ⊢
        obtain ⟨before, hsplit, hcount⟩ := ih h
        exact ⟨line' :: before, congrArg (line' :: ·) hsplit, by rw [hcount]; rfl⟩

theorem finished_eq_false_of_next {item : Except Failure String} (h : e.next.item? = some item) :
    e.finished = false := by
  cases hf : e.finished with
  | false => rfl
  | true => rw [next_of_finished hf] at h; cases h

theorem demand_of_going (h : e.finished = false) : e.demand = demandFrom e.strict e.state e.lines := by
  simp [demand, h]

theorem demand_of_finished (h : e.finished = true) : e.demand = 0 := by
  simp [demand, h]

/-- A stream that is not over has asked for the lines that are gone, and for no
other. -/
theorem HasRead.of_going {left : Stream} {count : Nat} (h : left.HasRead lines count)
    (hf : left.finished = false) : ∃ taken, lines = taken ++ left.lines ∧ count = taken.length := by
  obtain ⟨taken, hsplit, hcount | ⟨-, hover, -⟩⟩ := h
  · exact ⟨taken, hsplit, hcount⟩
  · rw [hf] at hover; cases hover

/-- Any number of pulls ask for the lines that they take, and for no other but
the end. -/
theorem hasRead_after (e : Stream) (n : Nat) : (e.after n).HasRead e.lines (e.requests n) := by
  induction n with
  | zero => exact ⟨[], rfl, .inl rfl⟩
  | succ n ih =>
    rw [after, requests]
    cases hf : (e.after n).finished with
    | true => rw [next_of_finished hf, demand_of_finished hf]; exact ih
    | false =>
      -- the end has not been asked for yet, since whoever meets it is over
      obtain ⟨taken, hsplit, hcount⟩ := ih.of_going hf
      obtain ⟨taken', hsplit', hcount'⟩ :=
        hasRead_pullFrom (e.after n).strict (e.after n).state #[] (e.after n).lines
      rw [next_of_going hf, demand_of_going hf]
      refine ⟨taken ++ taken', ?_, ?_⟩
      · rw [List.append_assoc, ← hsplit', ← hsplit]
      · rw [hcount, List.length_append, Nat.add_assoc, Nat.add_left_cancel_iff,
          Nat.add_left_cancel_iff]
        exact hcount'

/-- A pull that gives a line leaves the lines behind it, and has asked for no
line behind it. -/
theorem exists_before {line : String} (h : (e.pull n).item? = some (.ok line)) :
    ∃ before, e.lines = before ++ line :: (e.pull n).stream.lines ∧
      e.requests (n + 1) = before.length + 1 := by
  have hf : (e.after n).finished = false := finished_eq_false_of_next h
  obtain ⟨taken, hsplit, hcount⟩ := (hasRead_after e n).of_going hf
  rw [pull, next_of_going hf] at h ⊢
  obtain ⟨before, hlines, hrequests⟩ := demandFrom_of_ok h
  refine ⟨taken ++ before, ?_, ?_⟩
  · rw [List.append_assoc, ← hlines]
    exact hsplit
  · rw [requests, demand_of_going hf, hcount, hrequests, List.length_append]
    omega

/-- A stream that is over asks for nothing more. -/
theorem requests_of_lt (h : ∀ line, (e.pull n).item? ≠ some (.ok line)) (hm : n < m) :
    e.requests (m + 1) = e.requests (n + 1) := by
  obtain ⟨k, rfl⟩ := Nat.exists_eq_add_of_lt hm
  have hover (i : Nat) (hi : n < i) : e.requests (i + 1) = e.requests i := by
    obtain ⟨hafter, hf, -⟩ := pull_of_lt h hi
    rw [requests, demand_of_finished (hafter ▸ hf), Nat.add_zero]
  induction k with
  | zero => exact hover (n + 1) hm
  | succ k ih => rw [hover _ (by omega)]; exact ih (by omega)

/-! ## Lines that have not been asked for -/

/-- The streams are the same but for what follows `rest` among their lines. -/
structure Mirror (rest ys zs : List String) (e e' : Stream) : Prop where
  strictness : e.strict = e'.strict
  state : e.state = e'.state
  finished : e.finished = e'.finished
  lines : e.lines = rest ++ ys
  lines' : e'.lines = rest ++ zs

/-- A pull that asks for lines of `rest` only does the same whatever follows
them. -/
theorem mirror_pullFrom {s : State} {events : Array Event} {rest ys zs : List String}
    (h : demandFrom strict s (rest ++ ys) ≤ rest.length) :
    (pullFrom strict s events (rest ++ ys)).item? = (pullFrom strict s events (rest ++ zs)).item? ∧
      ∃ rest', demandFrom strict s (rest ++ ys) + rest'.length = rest.length ∧
        Mirror rest' ys zs (pullFrom strict s events (rest ++ ys)).stream
          (pullFrom strict s events (rest ++ zs)).stream := by
  induction rest generalizing s events with
  -- behind `rest` a pull cannot begin: it would ask for one line more
  | nil => exact absurd (demandFrom_pos strict s ys) (by simpa using h)
  | cons line rest ih =>
    simp only [List.cons_append, pullFrom, demandFrom] at h ⊢
    cases hs : s.step strict line with
    | error failure =>
      exact ⟨rfl, rest, Nat.add_comm _ _, rfl, rfl, rfl, rfl, rfl⟩
    | ok t =>
      obtain ⟨state, verdict, caused⟩ := t
      cases verdict with
      | emit =>
        exact ⟨rfl, rest, Nat.add_comm _ _, rfl, rfl, rfl, rfl, rfl⟩
      | drop =>
        simp only [hs] at h ⊢
        obtain ⟨hitem, rest', hcount, hmirror⟩ := ih (Nat.le_of_succ_le_succ h)
        refine ⟨hitem, rest', ?_, hmirror⟩
        rw [List.length_cons]
        omega

theorem Mirror.next {rest ys zs : List String} (h : Mirror rest ys zs e e')
    (hd : e.demand ≤ rest.length) : e.next.item? = e'.next.item? ∧
      ∃ rest', e.demand + rest'.length = rest.length ∧
        Mirror rest' ys zs e.next.stream e'.next.stream := by
  obtain ⟨hstrict, hstate, hfinished, hlines, hlines'⟩ := h
  cases hf : e.finished with
  | true =>
    rw [next_of_finished hf, next_of_finished (hfinished ▸ hf), demand_of_finished hf]
    exact ⟨rfl, rest, Nat.zero_add _, hstrict, hstate, hfinished, hlines, hlines'⟩
  | false =>
    rw [demand_of_going hf, hlines] at hd
    rw [next_of_going hf, next_of_going (hfinished ▸ hf), demand_of_going hf, ← hstrict, ← hstate,
      hlines, hlines']
    exact mirror_pullFrom hd

/-- Streams whose lines begin alike stay together as long as they ask for no
more than the beginning. -/
theorem Mirror.after {xs ys zs : List String} (h : Mirror xs ys zs e e')
    (hr : e.requests n ≤ xs.length) :
    ∃ rest, e.requests n + rest.length = xs.length ∧ Mirror rest ys zs (e.after n) (e'.after n) := by
  induction n with
  | zero => exact ⟨xs, Nat.zero_add _, h⟩
  | succ n ih =>
    rw [requests] at hr ⊢
    obtain ⟨rest, hcount, hmirror⟩ := ih (by omega)
    obtain ⟨-, rest', hcount', hmirror'⟩ := hmirror.next (by omega)
    exact ⟨rest', by omega, hmirror'⟩

/-- A pull that, with those before it, asks for lines of `xs` only gives the
same and leaves the same state whatever follows `xs`. -/
theorem pull_append_congr {xs ys : List String} (zs : List String)
    (hr : (start strict symbols (xs ++ ys)).requests (n + 1) ≤ xs.length) :
    ((start strict symbols (xs ++ zs)).pull n).item? =
        ((start strict symbols (xs ++ ys)).pull n).item? ∧
      ((start strict symbols (xs ++ zs)).pull n).stream.state =
        ((start strict symbols (xs ++ ys)).pull n).stream.state := by
  have h : Mirror xs ys zs (start strict symbols (xs ++ ys)) (start strict symbols (xs ++ zs)) :=
    ⟨rfl, rfl, rfl, rfl, rfl⟩
  rw [requests] at hr
  have hn : (start strict symbols (xs ++ ys)).requests n ≤ xs.length := by omega
  obtain ⟨rest, hcount, hmirror⟩ := h.after hn
  obtain ⟨hitem, rest', -, hmirror'⟩ := hmirror.next (by omega)
  exact ⟨hitem.symm, hmirror'.state.symm⟩

/-! ## The whole protocol -/

/-- What a caller can rely on who pulls a stream again and again.

The pulls give the lines of some list, then at most one failure, and then
nothing for ever; the lines are some of the lines of the stream, in order and
as they stand, and are text. So many pulls have asked for the lines that they
have taken and for no other but the end, and a pull that gives a line has asked
for no line behind it. After a pull that gives no line, nothing is asked for
and nothing changes any more. What a pull gives and the state that it leaves
depend on the lines only that were asked for. And the text that is made of a
source is made of what the pulls give. -/
theorem pull_protocol (strict : Bool) (symbols : Symbols) (lines : List String) :
    (∃ (kept : List String) (failure? : Option Failure),
      (∀ n, ((start strict symbols lines).pull n).item? =
        (kept.map .ok ++ failure?.toList.map .error)[n]?) ∧
      kept.Sublist lines ∧ ∀ line ∈ kept, (Directive.ofLine line).isText) ∧
    (∀ n, ((start strict symbols lines).after n).HasRead lines
      ((start strict symbols lines).requests n)) ∧
    (∀ n line, ((start strict symbols lines).pull n).item? = some (.ok line) →
      ∃ before, lines = before ++ line :: ((start strict symbols lines).pull n).stream.lines ∧
        (start strict symbols lines).requests (n + 1) = before.length + 1) ∧
    (∀ n, (∀ line, ((start strict symbols lines).pull n).item? ≠ some (.ok line)) → ∀ m, n < m →
      ((start strict symbols lines).pull m).item? = none ∧
      ((start strict symbols lines).pull m).stream = ((start strict symbols lines).pull n).stream ∧
      (start strict symbols lines).requests (m + 1) =
        (start strict symbols lines).requests (n + 1)) ∧
    (∀ xs ys zs n, lines = xs ++ ys → (start strict symbols lines).requests (n + 1) ≤ xs.length →
      ((start strict symbols (xs ++ zs)).pull n).item? =
        ((start strict symbols lines).pull n).item? ∧
      ((start strict symbols (xs ++ zs)).pull n).stream.state =
        ((start strict symbols lines).pull n).stream.state) ∧
    (∀ source failure, (preprocess symbols source).text = .error failure ↔
      ∃ n, ((start false symbols (Text.lines source)).pull n).item? = some (.error failure)) ∧
    (∀ source output, (preprocess symbols source).text = .ok output ↔
      ∃ kept : List String, (∀ n, ((start false symbols (Text.lines source)).pull n).item? =
        (kept.map .ok)[n]?) ∧ Text.unlines kept = output) := by
  refine ⟨⟨(select strict symbols lines).kept.toList, (select strict symbols lines).failure?,
      item?_pull strict symbols lines, ?_, ?_⟩, hasRead_after _, fun n line h => exists_before h,
    fun n h m hm => ?_, fun xs ys zs n hsplit hr => ?_, fun source failure => ?_,
    fun source output => ?_⟩
  · rw [Run.kept_select]
    exact Run.yields_sublist strict _ lines
  · rw [Run.kept_select]
    exact fun line => Run.isText_of_mem_yields
  · obtain ⟨-, -, hpull⟩ := pull_of_lt h hm
    rw [hpull]
    exact ⟨rfl, rfl, requests_of_lt h hm⟩
  · subst hsplit
    exact pull_append_congr zs hr
  · rw [Run.text_eq_error_iff, ← Run.error_mem_items_iff, List.mem_iff_getElem?]
    simp only [item?_pull]
    rfl
  · rw [Run.text_eq_ok_iff]
    simp only [item?_pull, ← List.ext_getElem?_iff, Run.items_eq_map_ok_iff]
    rfl

/-- The first pull gives `y` and has read so far only, so it would give the
same if other lines followed; the second fails at the `#error` line, and the
third does not read the last line. -/
theorem pull_protocol_failing :
    ((start false ∅ ["#if A", "x", "#else", "y", "#endif", "#error no", "z"]).pull 0).item? =
      some (.ok "y") ∧
    (∃ before, ["#if A", "x", "#else", "y", "#endif", "#error no", "z"] = before ++ "y" ::
        ((start false ∅ ["#if A", "x", "#else", "y", "#endif", "#error no", "z"]).pull 0).stream.lines ∧
      (start false ∅ ["#if A", "x", "#else", "y", "#endif", "#error no", "z"]).requests 1 =
        before.length + 1) ∧
    ((start false ∅ ["#if A", "x", "#else", "y", "#elif !"]).pull 0).item? = some (.ok "y") ∧
    ((start false ∅ ["#if A", "x", "#else", "y", "#endif", "#error no", "z"]).pull 1).item? =
      some (.error (.userError "no")) ∧
    ((start false ∅ ["#if A", "x", "#else", "y", "#endif", "#error no", "z"]).pull 2).item? = none ∧
    ((start false ∅ ["#if A", "x", "#else", "y", "#endif", "#error no", "z"]).pull 2).stream.lines =
      ["z"] := by
  have hkept : (select false ∅ ["#if A", "x", "#else", "y", "#endif", "#error no", "z"]).kept.toList =
      ["y"] := by decide +kernel
  have hfailure : (select false ∅ ["#if A", "x", "#else", "y", "#endif", "#error no", "z"]).failure? =
      some (.userError "no") := by decide +kernel
  have h0 : ((start false ∅ ["#if A", "x", "#else", "y", "#endif", "#error no", "z"]).pull 0).item? =
      some (.ok "y") := by rw [item?_pull, Run.items, hkept, hfailure]; rfl
  have h1 : ((start false ∅ ["#if A", "x", "#else", "y", "#endif", "#error no", "z"]).pull 1).item? =
      some (.error (.userError "no")) := by rw [item?_pull, Run.items, hkept, hfailure]; rfl
  obtain ⟨-, -, hread, hover, hsame, -⟩ :=
    pull_protocol false ∅ ["#if A", "x", "#else", "y", "#endif", "#error no", "z"]
  have hfails : ∀ line, ((start false ∅
      ["#if A", "x", "#else", "y", "#endif", "#error no", "z"]).pull 1).item? ≠ some (.ok line) := by
    intro line h
    rw [h1] at h
    cases h
  have hother := hsame ["#if A", "x", "#else", "y"] _ ["#elif !"] 0 rfl (by decide +kernel)
  obtain ⟨hnone, hstream, -⟩ := hover 1 hfails 2 (by decide)
  exact ⟨h0, hread 0 "y" h0, hother.1.trans h0, h1, hnone, by rw [hstream]; decide +kernel⟩

end Amalgam.Selection.Stream
