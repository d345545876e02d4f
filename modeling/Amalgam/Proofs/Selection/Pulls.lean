import Amalgam.Proofs.Selection.Runs
import Amalgam.Selection.Stream

/-!
# Pulling a stream dry

A stream takes lines on demand, a run takes them all. What a single pull does
is `Pulled`, in the words of runs: it takes lines up to one that is kept, up to
one that fails, or to the end. From that follows where a stream stands after
any number of pulls (`standing_after`): where the run over the lines it has
taken stands. One pull more than there are lines is enough to reach the end,
and then the stream has given what the whole run gives
(`items_eq_of_length_lt`). From any state, a stream gives what is kept of the
lines in front of it and goes on behind them (`items_append`).
-/

namespace Amalgam.Selection

/-- What a run gives, line by line: the kept lines, and the failure that
stopped it, if one did. -/
def Run.items (r : Run) : List (Except Failure String) :=
  r.kept.toList.map .ok ++ r.failure?.toList.map .error

/-- A failure is among what a run gives exactly if it has stopped the run. -/
theorem Run.error_mem_items_iff {r : Run} {failure : Failure} :
    .error failure ∈ r.items ↔ r.failure? = some failure := by
  rw [Run.items]
  cases r.failure? <;> simp [eq_comm]

/-- What a run gives are lines only exactly if it gives a result, and then the
lines of that. -/
theorem Run.items_eq_map_ok_iff {r : Run} {kept : List String} :
    r.items = kept.map .ok ↔ r.result = .ok kept := by
  rw [Run.result_eq_ok_iff]
  cases hf : r.failure? with
  | none =>
    simp only [Run.items, hf, Option.toList_none, List.map_nil, List.append_nil, true_and]
    exact List.map_inj_right fun _ _ => Except.ok.inj
  | some failure =>
    have hmem : .error failure ∈ r.items := error_mem_items_iff.mpr hf
    simp only [reduceCtorEq, false_and, iff_false]
    intro h
    obtain ⟨line, -, hline⟩ := List.mem_map.mp (h ▸ hmem)
    cases hline

namespace Stream

/-- The stream after so many pulls. -/
def after (e : Stream) : Nat → Stream
  | 0 => e
  | n + 1 => (e.after n).next.stream

/-- The pull that comes after so many others. -/
def pull (e : Stream) (n : Nat) : Pull :=
  (e.after n).next

/-- What so many pulls give. -/
def items (e : Stream) : Nat → List (Except Failure String)
  | 0 => []
  | n + 1 => e.items n ++ (e.after n).next.item?.toList

/-! ## One pull -/

/-- What a pull gives and leaves, if `r` stands where the stream stands and
`lines` are still to be taken. -/
inductive Pulled (strict : Bool) (r : Run) (lines : List String) :
    Option (Except Failure String) → Stream → Prop
  /-- Lines were dropped, then one was kept. -/
  | kept (dropped : List String) (line : String) (rest : List String)
    (split : lines = dropped ++ line :: rest)
    (goesOn : (r.feedAll strict (dropped ++ [line])).failure? = none)
    (before : (r.feedAll strict dropped).kept = r.kept)
    (at_ : (r.feedAll strict (dropped ++ [line])).kept = r.kept.push line) :
    Pulled strict r lines (some (.ok line))
      { strict, state := (r.feedAll strict (dropped ++ [line])).state, lines := rest }
  /-- Lines were dropped, then one failed. -/
  | failed (taken : List String) (rest : List String) (failure : Failure)
    (split : lines = taken ++ rest) (fails : (r.feedAll strict taken).failure? = some failure)
    (before : (r.feedAll strict taken).kept = r.kept) :
    Pulled strict r lines (some (.error failure))
      { strict, state := (r.feedAll strict taken).state, lines := rest, finished := true }
  /-- All lines were dropped; a strict run may fail even then. -/
  | ended (goesOn : (r.feedAll strict lines).failure? = none)
    (before : (r.feedAll strict lines).kept = r.kept) :
    Pulled strict r lines (((r.feedAll strict lines).finish strict).failure?.map .error)
      { strict, state := (r.feedAll strict lines).state, lines := [], finished := true }

variable {strict : Bool} {r : Run}

/-- A dropped line in front of a pull. -/
theorem Pulled.cons {line : String} {lines : List String} {item? : Option (Except Failure String)}
    {e : Stream} (hk : (r.feed strict line).kept = r.kept)
    (h : Pulled strict (r.feed strict line) lines item? e) :
    Pulled strict r (line :: lines) item? e := by
  cases h with
  | kept dropped line' rest split goesOn before at_ =>
    exact .kept (line :: dropped) line' rest (by rw [split]; rfl) goesOn (before.trans hk)
      (hk ▸ at_)
  | failed taken rest failure split fails before =>
    exact .failed (line :: taken) rest failure (by rw [split]; rfl) fails (before.trans hk)
  | ended goesOn before => exact .ended goesOn (before.trans hk)

/-- The end of the lines, reached by a pull. -/
theorem pulled_nil (events : Array Event) (hr : r.failure? = none) :
    Pulled strict r [] (pullFrom strict r.state events []).item?
      (pullFrom strict r.state events []).stream := by
  have h : Pulled strict r [] ((r.finish strict).failure?.map .error)
      { strict, state := r.state, lines := [], finished := true } := .ended hr rfl
  simp only [Run.finish, hr] at h
  simp only [pullFrom]
  cases hc : r.state.close strict with
  | error failure => simpa [hc] using h
  | ok closing => simpa [hc, hr] using h

theorem pulled_pullFrom (events : Array Event) (lines : List String) (hr : r.failure? = none) :
    Pulled strict r lines (pullFrom strict r.state events lines).item?
      (pullFrom strict r.state events lines).stream := by
  induction lines generalizing r events with
  | nil => exact pulled_nil events hr
  | cons line lines ih =>
    simp only [pullFrom]
    cases hs : r.state.step strict line with
    | error failure =>
      have hf := Run.feed_of_error hr hs
      have h : Pulled strict r (line :: lines) (some (.error failure))
          { strict, state := (r.feed strict line).state, lines, finished := true } :=
        .failed [line] lines failure rfl (show (r.feed strict line).failure? = _ by rw [hf])
          (show (r.feed strict line).kept = _ by rw [hf])
      rwa [hf] at h
    | ok t =>
      have hf := Run.feed_of_ok hr hs
      have hgo : (r.feed strict line).failure? = none := by rw [hf]; exact hr
      obtain ⟨state, verdict, caused⟩ := t
      cases verdict with
      | emit =>
        have h : Pulled strict r (line :: lines) (some (.ok line))
            { strict, state := (r.feed strict line).state, lines } :=
          .kept [] line lines rfl hgo rfl (show (r.feed strict line).kept = _ by rw [hf])
        rwa [hf] at h
      | drop =>
        have hk : (r.feed strict line).kept = r.kept := by rw [hf]
        have h := ih (events ++ caused) hgo
        rw [show (r.feed strict line).state = state by rw [hf]] at h
        exact h.cons hk

/-! ## Many pulls -/

/-- Where a stream over `lines` stands once it has taken `taken` and given
`items` in `n` pulls. -/
structure Standing (strict : Bool) (symbols : Symbols) (lines : List String) (n : Nat) (e : Stream)
    (items : List (Except Failure String)) (taken : List String) : Prop where
  strictness : e.strict = strict
  split : lines = taken ++ e.lines
  state : e.state = ((Run.start symbols).feedAll strict taken).state
  /-- A stream that is not over has given what was kept, and every pull took a
  line. -/
  going : e.finished = false → ((Run.start symbols).feedAll strict taken).failure? = none ∧
    items = ((Run.start symbols).feedAll strict taken).items ∧ n ≤ taken.length
  /-- A stream that is over has given all that the run over all lines gives. -/
  ended : e.finished = true → items = (select strict symbols lines).items ∧
    (select strict symbols lines).state = e.state

variable {symbols : Symbols} {lines : List String} {n : Nat} {e : Stream}
  {items : List (Except Failure String)} {taken : List String}

theorem standing_start (strict : Bool) (symbols : Symbols) (lines : List String) :
    Standing strict symbols lines 0 (start strict symbols lines) [] [] where
  strictness := rfl
  split := rfl
  state := rfl
  going _ := ⟨rfl, rfl, Nat.le_refl 0⟩
  ended h := nomatch h

/-- A stream that is over is left as it is and gives nothing. -/
theorem next_of_finished (h : e.finished = true) : e.next = { item? := none, stream := e, events := #[] } := by
  simp [next, h]

theorem next_of_going (h : e.finished = false) : e.next = pullFrom e.strict e.state #[] e.lines := by
  simp [next, h]

/-- A pull by a stream that is not over. -/
theorem Standing.of_pulled {item? : Option (Except Failure String)} {e' : Stream}
    (h : Standing strict symbols lines n e items taken) (hf : e.finished = false)
    (hp : Pulled strict ((Run.start symbols).feedAll strict taken) e.lines item? e') :
    ∃ taken', Standing strict symbols lines (n + 1) e' (items ++ item?.toList) taken' := by
  obtain ⟨hgo, hitems, hn⟩ := h.going hf
  have hsplit := h.split
  cases hp with
  | kept dropped line rest split goesOn before at_ =>
    refine ⟨taken ++ (dropped ++ [line]), rfl, ?_, ?_, fun _ => ⟨?_, ?_, ?_⟩, nofun⟩
    · rw [hsplit, split]; simp
    · exact congrArg Run.state (Run.feedAll_append taken _).symm
    · rw [Run.feedAll_append]; exact goesOn
    · rw [Run.feedAll_append, hitems, Run.items, Run.items, goesOn, hgo, at_]; simp
    · simp only [List.length_append, List.length_singleton]; omega
  | failed taken' rest failure split fails before =>
    have hsel : select strict symbols lines =
        (Run.start symbols).feedAll strict (taken ++ taken') := by
      rw [Run.select_eq, hsplit, split, ← List.append_assoc, Run.feedAll_append,
        Run.feedAll_append, Run.feedAll_of_failure fails, Run.finish_of_failure fails]
    refine ⟨taken ++ taken', rfl, ?_, ?_, nofun, fun _ => ⟨?_, ?_⟩⟩
    · rw [hsplit, split, List.append_assoc]
    · rw [Run.feedAll_append]
    · rw [hsel, Run.feedAll_append, hitems, Run.items, Run.items, fails, hgo, before]; simp
    · rw [hsel, Run.feedAll_append]
  | ended goesOn before =>
    have hsel : select strict symbols lines =
        (((Run.start symbols).feedAll strict taken).feedAll strict e.lines).finish strict := by
      rw [Run.select_eq, ← Run.feedAll_append, ← hsplit]
    refine ⟨taken ++ e.lines, rfl, ?_, ?_, nofun, fun _ => ⟨?_, ?_⟩⟩
    · rw [List.append_nil]; exact hsplit
    · rw [Run.feedAll_append]
    · rw [hsel, hitems, Run.items, Run.items, Run.finish_kept, hgo, before]
      cases ((Run.feedAll strict _ e.lines).finish strict).failure? <;> simp
    · rw [hsel, Run.finish_state]

theorem Standing.next (h : Standing strict symbols lines n e items taken) :
    ∃ taken', Standing strict symbols lines (n + 1) e.next.stream (items ++ e.next.item?.toList)
      taken' := by
  cases hfin : e.finished with
  | true =>
    rw [next_of_finished hfin]
    simp only [Option.toList_none, List.append_nil]
    exact ⟨taken, h.strictness, h.split, h.state, fun hf => absurd (hfin.symm.trans hf) (by decide),
      h.ended⟩
  | false =>
    have hp : Pulled strict _ e.lines _ _ := pulled_pullFrom #[] e.lines (h.going hfin).1
    rw [← h.state, ← h.strictness] at hp
    rw [next_of_going hfin]
    exact h.of_pulled hfin (h.strictness ▸ hp)

/-- After any number of pulls a stream stands where the run over the lines it
has taken stands. -/
theorem standing_after (strict : Bool) (symbols : Symbols) (lines : List String) (n : Nat) :
    ∃ taken, Standing strict symbols lines n ((start strict symbols lines).after n)
      ((start strict symbols lines).items n) taken := by
  induction n with
  | zero => exact ⟨[], standing_start strict symbols lines⟩
  | succ n ih =>
    obtain ⟨taken, h⟩ := ih
    exact h.next

theorem after_strictness (strict : Bool) (symbols : Symbols) (lines : List String) (n : Nat) :
    ((start strict symbols lines).after n).strict = strict := by
  obtain ⟨taken, h⟩ := standing_after strict symbols lines n
  exact h.strictness

/-- A stream that is not over has counted the lines it has taken. -/
theorem getElem?_lineNumber_add {strict : Bool}
    (hf : ((start strict symbols lines).after n).finished = false) (k : Nat) :
    lines[((start strict symbols lines).after n).state.lineNumber + k]? =
      ((start strict symbols lines).after n).lines[k]? := by
  obtain ⟨taken, h⟩ := standing_after strict symbols lines n
  have hn : ((start strict symbols lines).after n).state.lineNumber = taken.length := by
    rw [h.state, Run.feedAll_lineNumber (h.going hf).1]
    exact Nat.zero_add _
  calc lines[((start strict symbols lines).after n).state.lineNumber + k]?
      = (taken ++ ((start strict symbols lines).after n).lines)[taken.length + k]? := by
        rw [hn, ← h.split]
    _ = ((start strict symbols lines).after n).lines[k]? := by
        rw [List.getElem?_append_right (Nat.le_add_right _ _), Nat.add_sub_cancel_left]

/-- A stream that was pulled more often than it had lines is over, and has
given what the run over the lines gives and stands where that run ends. -/
theorem items_eq_of_length_lt (strict : Bool) (symbols : Symbols) {lines : List String} {n : Nat}
    (h : lines.length < n) :
    (start strict symbols lines).items n = (select strict symbols lines).items ∧
      ((start strict symbols lines).after n).state = (select strict symbols lines).state := by
  obtain ⟨taken, hst⟩ := standing_after strict symbols lines n
  have hover : ((start strict symbols lines).after n).finished = true := by
    cases hf : ((start strict symbols lines).after n).finished with
    | true => rfl
    | false =>
      obtain ⟨-, -, hn⟩ := hst.going hf
      have := congrArg List.length hst.split
      rw [List.length_append] at this
      omega
  exact ⟨(hst.ended hover).1, (hst.ended hover).2.symm⟩

end Stream

/-! ## Going on behind some lines -/

namespace Stream

variable {strict : Bool} {e e' : Stream}

theorem after_succ (e : Stream) (n : Nat) : e.after (n + 1) = e.next.stream.after n := by
  induction n with
  | zero => rfl
  | succ n ih => exact congrArg (fun e' : Stream => e'.next.stream) ih

theorem items_succ (e : Stream) (n : Nat) :
    e.items (n + 1) = e.next.item?.toList ++ e.next.stream.items n := by
  induction n with
  | zero => exact (List.append_nil _).symm
  | succ n ih =>
    rw [items, ih, after_succ, items, List.append_assoc]

/-- The streams give the same from the next pull on. -/
structure Agree (e e' : Stream) : Prop where
  item? : e.next.item? = e'.next.item?
  stream : e.next.stream = e'.next.stream

theorem Agree.items_eq (h : e.Agree e') (n : Nat) : e.items n = e'.items n := by
  cases n with
  | zero => rfl
  | succ n => rw [items_succ, items_succ, h.item?, h.stream]

theorem Agree.after (h : e.Agree e') (n : Nat) : (e.after n).Agree (e'.after n) := by
  cases n with
  | zero => exact h
  | succ n =>
    rw [after_succ, after_succ, h.stream]
    exact ⟨rfl, rfl⟩

theorem Agree.trans {e'' : Stream} (h : e.Agree e') (h' : e'.Agree e'') : e.Agree e'' :=
  ⟨h.item?.trans h'.item?, h.stream.trans h'.stream⟩

/-- What was logged before matters neither to what a pull gives nor to what it
leaves. -/
theorem pullFrom_events (strict : Bool) (s : State) (events events' : Array Event)
    (lines : List String) :
    (pullFrom strict s events lines).item? = (pullFrom strict s events' lines).item? ∧
      (pullFrom strict s events lines).stream = (pullFrom strict s events' lines).stream := by
  induction lines generalizing s events events' with
  | nil =>
    simp only [pullFrom]
    cases s.close strict <;> exact ⟨rfl, rfl⟩
  | cons line lines ih =>
    simp only [pullFrom]
    cases s.step strict line with
    | error failure => exact ⟨rfl, rfl⟩
    | ok t =>
      obtain ⟨state, verdict, caused⟩ := t
      cases verdict with
      | emit => exact ⟨rfl, rfl⟩
      | drop => exact ih state _ _

/-- A stream that is not over, in front of a line that is dropped. -/
theorem agree_of_drop {s : State} {line : String} {t : Step} (hs : s.step strict line = .ok t)
    (hv : t.verdict = .drop) (lines : List String) :
    Agree { strict, state := s, lines := line :: lines } { strict, state := t.state, lines } := by
  obtain ⟨state, verdict, caused⟩ := t
  obtain rfl : verdict = .drop := hv
  have h := pullFrom_events strict state ((#[] : Array Event) ++ caused) #[] lines
  refine ⟨?_, ?_⟩ <;> simp only [Stream.next, pullFrom, hs, Bool.false_eq_true, if_false]
  · exact h.1
  · exact h.2

/-- A stream that is not over, in front of a line that is kept. -/
theorem next_of_emit {s : State} {line : String} {t : Step} (hs : s.step strict line = .ok t)
    (hv : t.verdict = .emit) (lines : List String) :
    (next { strict, state := s, lines := line :: lines }).item? = some (.ok line) ∧
      (next { strict, state := s, lines := line :: lines }).stream =
        { strict, state := t.state, lines } := by
  obtain ⟨state, verdict, caused⟩ := t
  obtain rfl : verdict = .emit := hv
  simp only [next, pullFrom, hs, Bool.false_eq_true, if_false, and_self]

/-- A stream gives what is kept of the lines in front of it, if none of them
fails, and then goes on behind them. -/
theorem items_append {r : Run} (xs ys : List String)
    (hgo : (r.feedAll strict xs).failure? = none) :
    items { strict, state := r.state, lines := xs ++ ys } (r.yields strict xs).length =
        (r.yields strict xs).map .ok ∧
      Agree (after { strict, state := r.state, lines := xs ++ ys } (r.yields strict xs).length)
        { strict, state := (r.feedAll strict xs).state, lines := ys } := by
  induction xs generalizing r with
  | nil => rw [Run.yields_nil]; exact ⟨rfl, rfl, rfl⟩
  | cons line xs ih =>
    obtain ⟨hr, t, hs⟩ := Run.feed_failure?_eq_none_iff.mp (Run.failure?_eq_none_of_feedAll hgo)
    have hstate : (r.feed strict line).state = t.state := by rw [Run.feed_of_ok hr hs]
    have h := ih hgo
    rw [hstate] at h
    rw [Run.yields_cons, Run.yields_singleton hr hs, Run.feedAll_cons]
    cases hv : t.verdict with
    | drop =>
      have hdrop := agree_of_drop hs hv (xs ++ ys)
      rw [List.nil_append, List.cons_append, hdrop.items_eq]
      exact ⟨h.1, (hdrop.after _).trans h.2⟩
    | emit =>
      obtain ⟨hitem, hstream⟩ := next_of_emit hs hv (xs ++ ys)
      simp only [List.cons_append, List.nil_append, List.length_cons]
      rw [items_succ, after_succ, hitem, hstream, h.1]
      exact ⟨rfl, h.2⟩

end Stream

end Amalgam.Selection
