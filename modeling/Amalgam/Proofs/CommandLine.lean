import Amalgam.CommandLine
import Amalgam.Proofs.Symbols
import Mathlib.Tactic.SplitIfs

/-!
# Symbols from the command line

Arguments give lists of symbols behind `--define` and `-d`, in an argument of
their own or in the same one, and reading the arguments takes them apart at
their commas. What becomes of an argument depends on what waits for it, so the
reader is followed from argument to argument: at every point the values that it
has taken in, together with those that the rest of the arguments gives, are the
values of all the arguments.

* `defineForm`, `definesIn`: the values of `--define`, read off the arguments;
* `Reader.expects_readArgument`: what one argument adds;
* `defines_read`: what the arguments come to, if they are accepted;
* `settings_symbols`: the table that arguments and environment make.
-/

namespace Amalgam.CommandLine

/-! ## The values of `--define` -/

/-- What an argument has to do with `--define`. -/
inductive DefineForm
  /-- It gives no value. -/
  | absent
  /-- The next argument is the value. -/
  | separate
  | attached (value : String)
  deriving DecidableEq, Repr

/-- How an argument gives a value to `--define`, going by its spelling. -/
def defineForm (argument : String) : DefineForm :=
  if argument = "--define" ∨ argument = "-d" then .separate
  else
    match ["--define=", "-d=", "-d"].findSome? (·.toList.isPrefixOf? argument.toList) with
    | some value => .attached (String.ofList value)
    | none => .absent

/-- The values of `--define` that some arguments give, in order. There are none
behind `--`. If a value is waited for, it is the first argument. -/
def definesIn (waiting : Bool) : List String → List String
  | [] => []
  | argument :: rest =>
    if argument = "--" then []
    else if waiting then argument :: definesIn false rest
    else match defineForm argument with
      | .absent => definesIn false rest
      | .separate => definesIn true rest
      | .attached value => value :: definesIn false rest

/-- The pieces of the value that an argument gives by itself. -/
def DefineForm.pieces : DefineForm → List String
  | .attached value => Symbols.pieces value
  | _ => []

/-- What an option has to do with `--define`, given the value attached to
it. -/
def Key.form : Key → Option (List Char) → DefineForm
  | .define, none => .separate
  | .define, some value => .attached (String.ofList value)
  | _, _ => .absent

variable {argument text : String} {value cs : List Char} {k : Key} {f : Flag}

theorem Key.form_of_ne (h : k ≠ .define) (attached? : Option (List Char)) : k.form attached? = .absent := by
  cases k with
  | define => exact absurd rfl h
  | output | extension | exclude => rfl


/-! ## Spellings -/

theorem defineForm_of_ne (hlong : argument ≠ "--define") (hshort : argument ≠ "-d") :
    defineForm argument =
      match ["--define=", "-d=", "-d"].findSome? (·.toList.isPrefixOf? argument.toList) with
      | some value => .attached (String.ofList value)
      | none => .absent :=
  if_neg (by simp [hlong, hshort])

/-- An argument with two dashes gives a value if its name is `define`. -/
theorem defineForm_long (h : argument.toList = '-' :: '-' :: cs) : defineForm argument =
    if cs.takeWhile (· ≠ '=') = "define".toList then Key.form .define (cs.dropWhile (· ≠ '=')).tail?
    else .absent := by
  have hshort : argument ≠ "-d" := by
    rintro rfl
    cases h
  have hlong : argument = "--define" ↔
      cs.takeWhile (· ≠ '=') = "define".toList ∧ (cs.dropWhile (· ≠ '=')).tail? = none := by
    have hcs : argument = "--define" ↔ cs = "define".toList := by
      rw [← String.toList_inj, h]
      simp
    exact hcs.trans (Text.eq_iff_of_not_mem (by decide))
  have hsearch : ["--define=", "-d=", "-d"].findSome? (·.toList.isPrefixOf? argument.toList) =
      "define=".toList.isPrefixOf? cs := by
    rw [h]
    simp only [List.findSome?, String.reduceToList, List.isPrefixOf?, beq_self_eq_true, if_true, Char.reduceBEq,
      Bool.false_eq_true, if_false]
    cases ['d', 'e', 'f', 'i', 'n', 'e', '='].isPrefixOf? cs <;> rfl
  have hstart (value : List Char) : "define=".toList.isPrefixOf? cs = some value ↔
      cs.takeWhile (· ≠ '=') = "define".toList ∧ (cs.dropWhile (· ≠ '=')).tail? = some value := by
    rw [List.isPrefixOf?_eq_some_iff_append_eq]
    change "define".toList ++ '=' :: value = cs ↔ _
    exact Text.append_cons_eq_iff (by decide)
  split
  next hname =>
    cases hvalue : (cs.dropWhile (· ≠ '=')).tail? with
    | none => exact if_pos (.inl (hlong.mpr ⟨hname, hvalue⟩))
    | some value =>
      have hne : argument ≠ "--define" := by
        intro e
        rw [(hlong.mp e).2] at hvalue
        cases hvalue
      rw [defineForm_of_ne hne hshort, hsearch, (hstart value).mpr ⟨hname, hvalue⟩]
      rfl
  next hname =>
    have hnone : "define=".toList.isPrefixOf? cs = none :=
      Option.eq_none_iff_forall_ne_some.mpr fun value hvalue => hname ((hstart value).mp hvalue).1
    rw [defineForm_of_ne (fun e => hname (hlong.mp e).1) hshort, hsearch, hnone]

/-- The value that follows the letter of an option, if there is one. -/
def valueBehind? : List Char → Option (List Char)
  | [] => none
  | '=' :: value => some value
  | value => some value

/-- An argument with one dash gives a value if it goes on with `d`. -/
theorem defineForm_short {c : Char} (hc : c ≠ '-') (h : argument.toList = '-' :: c :: cs) :
    defineForm argument = if c = 'd' then Key.form .define (valueBehind? cs) else .absent := by
  have hlong : argument ≠ "--define" := by
    rintro rfl
    exact hc (List.cons.inj (List.cons.inj h).2).1.symm
  have hshort : argument = "-d" ↔ c = 'd' ∧ cs = [] := by
    rw [← String.toList_inj, h]
    simp
  split
  next hd =>
    subst hd
    cases cs with
    | nil => exact if_pos (.inr (hshort.mpr ⟨rfl, rfl⟩))
    | cons c cs =>
      rw [defineForm_of_ne hlong (by simp [hshort]), h]
      by_cases hequals : c = '='
      · subst hequals
        rfl
      · simp [valueBehind?, hequals, Ne.symm hequals, List.findSome?, List.isPrefixOf?, Key.form]
  next hd =>
    rw [defineForm_of_ne hlong (by simp [hshort, hd]), h]
    simp [List.findSome?, List.isPrefixOf?, Ne.symm hd, Ne.symm hc]

/-- An argument that starts with no dash, or is nothing else, gives no
value. -/
theorem defineForm_other (h : ∀ c cs, argument.toList ≠ '-' :: c :: cs) : defineForm argument = .absent := by
  have hlong : argument ≠ "--define" := by
    rintro rfl
    exact h _ _ rfl
  have hshort : argument ≠ "-d" := by
    rintro rfl
    exact h _ _ rfl
  have hnone : ["--define=", "-d=", "-d"].findSome? (·.toList.isPrefixOf? argument.toList) = none := by
    refine List.findSome?_eq_none_iff.mpr fun spelling hs => Option.eq_none_iff_forall_ne_some.mpr ?_
    intro value hvalue
    rw [List.isPrefixOf?_eq_some_iff_append_eq] at hvalue
    simp only [List.mem_cons, List.not_mem_nil, or_false] at hs
    rcases hs with rfl | rfl | rfl <;> exact h _ _ hvalue.symm
  rw [defineForm_of_ne hlong hshort, hnone]

theorem mem_of_lookup {α β : Type} [BEq α] [LawfulBEq α] {table : List (α × β)} {a : α} {b : β}
    (h : table.lookup a = some b) : (a, b) ∈ table := by
  obtain ⟨before, after, rfl, -⟩ := List.lookup_eq_some_iff.mp h
  exact List.mem_append_right _ (List.mem_cons_self ..)

/-- Of the long names only `define` stands for `--define`. -/
theorem lookup_longNames_iff {switch : Switch} (h : longNames.lookup text = some switch) :
    switch = .key .define ↔ text = "define" := by
  have hm := mem_of_lookup h
  simp only [longNames, List.mem_cons, Prod.mk.injEq, List.not_mem_nil, or_false] at hm
  rcases hm with ⟨rfl, rfl⟩ | ⟨rfl, rfl⟩ | ⟨rfl, rfl⟩ | ⟨rfl, rfl⟩ | ⟨rfl, rfl⟩ | ⟨rfl, rfl⟩ | ⟨rfl, rfl⟩ <;>
    decide

/-- Of the short names only `d` stands for `--define`, and none stands for
`--strict`. -/
theorem lookup_shortNames {c : Char} {switch : Switch} (h : shortNames.lookup c = some switch) :
    (switch = .key .define ↔ c = 'd') ∧ switch ≠ .flag .strict := by
  have hm := mem_of_lookup h
  simp only [shortNames, List.mem_cons, Prod.mk.injEq, List.not_mem_nil, or_false] at hm
  rcases hm with ⟨rfl, rfl⟩ | ⟨rfl, rfl⟩ | ⟨rfl, rfl⟩ | ⟨rfl, rfl⟩ <;> decide

/-! ## Reading argument by argument -/

/-- The pieces of a value of `--define` that has been taken up. -/
def Pending.defines : Pending → List String
  | .value .define text => Symbols.pieces text
  | _ => []

/-- An option stores the pieces of its value if it is `--define`. -/
theorem defines_store {a a' : Arguments} (h : a.store text k = .ok a') :
    a'.defines = a.defines ++ (Pending.value k text).defines := by
  unfold Arguments.store at h
  cases k with
  | define =>
    obtain rfl := Except.ok.inj h
    rfl
  | exclude =>
    obtain rfl := Except.ok.inj h
    exact (List.append_nil _).symm
  | output | extension =>
    dsimp only at h
    split_ifs at h
    obtain rfl := Except.ok.inj h
    exact (List.append_nil _).symm

/-- A flag that is acted on does not change the values of `--define`. -/
theorem defines_act {a a' : Arguments} (h : a.act f = .ok a') : a'.defines = a.defines := by
  unfold Arguments.act at h
  cases f with
  | strict =>
    dsimp only at h
    split_ifs at h
    obtain rfl := Except.ok.inj h
    rfl
  | help | version => cases h

namespace Reader

variable {r r' : Reader} {rest : List String} {attached? : Option (List Char)}

/-- The pieces of the values of `--define` that have been read. -/
def defines (r : Reader) : List String :=
  r.arguments.defines ++ r.pending.defines

/-- Whether `--define` waits for its value. -/
def awaits (r : Reader) : Bool :=
  r.pending = .waiting .define

/-- The pieces of all values of `--define` once the rest of the arguments is
read. -/
def expects (r : Reader) (rest : List String) : List String :=
  if r.inputOnly then r.defines else r.defines ++ (definesIn r.awaits rest).flatMap Symbols.pieces

/-- The reader waits for nothing, and settling gives these values. -/
structure Settles (r : Reader) (a : Arguments) : Prop where
  idle : ∀ k, r.pending ≠ .waiting k
  defines : a.defines = r.defines

theorem Settles.awaits {a : Arguments} (h : Settles r a) : r.awaits = false := by
  simp [Reader.awaits, h.idle]

theorem exists_settles (h : r.settle = .ok r') :
    ∃ a, Settles r a ∧ r' = { arguments := a, inputOnly := r.inputOnly } := by
  obtain ⟨a, pending, inputOnly⟩ := r
  unfold settle at h
  cases pending with
  | nothing => exact ⟨a, ⟨fun k => by simp, (List.append_nil _).symm⟩, (Except.ok.inj h).symm⟩
  | waiting k => cases h
  | value k text =>
    cases hstore : a.store text k with
    | error reason =>
      simp only [hstore] at h
      cases h
    | ok a' =>
      simp only [hstore] at h
      exact ⟨a', ⟨fun k => by simp, defines_store hstore⟩, (Except.ok.inj h).symm⟩
  | input text =>
    simp only [Arguments.storeInput] at h
    split at h
    · cases h
    · exact ⟨{ a with input? := some ⟨text⟩ }, ⟨fun k => by simp, (List.append_nil _).symm⟩,
        (Except.ok.inj h).symm⟩

/-- What goes on from a reader that settles first does so from one that has
settled. -/
theorem exists_settles_of_bind {f : Reader → Except Stop Reader} (h : r.settle >>= f = .ok r') :
    ∃ a, Settles r a ∧ f { arguments := a, inputOnly := r.inputOnly } = .ok r' := by
  cases hsettle : r.settle with
  | error reason =>
    rw [hsettle] at h
    cases h
  | ok next =>
    rw [hsettle] at h
    obtain ⟨a, hs, rfl⟩ := exists_settles hsettle
    exact ⟨a, hs, h⟩

/-- The reader goes on over an argument that gives a value to `--define` in the
given way. -/
structure Takes (r : Reader) (form : DefineForm) (r' : Reader) : Prop where
  idle : r.awaits = false
  inputOnly : r'.inputOnly = r.inputOnly
  awaits : r'.awaits = (form = .separate : Bool)
  defines : r'.defines = r.defines ++ form.pieces

theorem takes_takeInput (h : r.takeInput text = .ok r') : Takes r .absent r' := by
  unfold takeInput at h
  split at h
  · cases h
  · obtain ⟨a, hs, h⟩ := exists_settles_of_bind h
    obtain rfl := Except.ok.inj h
    exact ⟨hs.awaits, rfl, rfl, by rw [← hs.defines]; rfl⟩

theorem takes_takeFlag (h : r.takeFlag f = .ok r') : Takes r .absent r' := by
  obtain ⟨a, hs, h⟩ := exists_settles_of_bind h
  cases hact : a.act f with
  | error reason =>
    simp only [hact] at h
    cases h
  | ok a' =>
    simp only [hact] at h
    obtain rfl := Except.ok.inj h
    refine ⟨hs.awaits, rfl, rfl, ?_⟩
    rw [← hs.defines, ← defines_act hact]
    rfl

/-- Of the flags only `--strict` lets the reader go on. -/
theorem eq_strict_of_takeFlag (h : r.takeFlag f = .ok r') : f = .strict := by
  obtain ⟨a, -, h⟩ := exists_settles_of_bind h
  cases f with
  | strict => rfl
  | help | version => cases h

theorem takes_takeKey (h : r.takeKey k attached? = .ok r') : Takes r (k.form attached?) r' := by
  obtain ⟨a, hs, h⟩ := exists_settles_of_bind h
  cases attached? with
  | none =>
    obtain rfl := Except.ok.inj h
    exact ⟨hs.awaits, rfl, by cases k <;> rfl, by rw [← hs.defines]; cases k <;> rfl⟩
  | some value =>
    cases hstore : a.store (String.ofList value) k with
    | error reason =>
      simp only [hstore] at h
      cases h
    | ok a' =>
      simp only [hstore] at h
      obtain rfl := Except.ok.inj h
      refine ⟨hs.awaits, rfl, by cases k <;> rfl, ?_⟩
      rw [← hs.defines, defines, defines_store hstore]
      cases k <;> simp [Pending.defines, Key.form, DefineForm.pieces]

/-- What an option does to the reader if its spelling tells whether it is
`--define`. -/
theorem takes_takeKey_of_iff {spelled : Prop} [Decidable spelled]
    (hdefine : Switch.key k = .key .define ↔ spelled) (h : r.takeKey k attached? = .ok r') :
    Takes r (if spelled then Key.form .define attached? else .absent) r' := by
  have htakes := takes_takeKey h
  by_cases hk : k = .define
  · subst hk
    rwa [if_pos (hdefine.mp rfl)]
  · rwa [if_neg fun hspelled => hk (Switch.key.inj (hdefine.mpr hspelled)), ← Key.form_of_ne hk]

/-! ### Arguments as they are spelled -/

theorem takes_readLong (hargument : argument.toList = '-' :: '-' :: cs) (h : r.readLong cs = .ok r') :
    Takes r (defineForm argument) r' := by
  rw [defineForm_long hargument]
  unfold readLong at h
  dsimp only at h
  cases hname : longNames.lookup (String.ofList (cs.takeWhile (· ≠ '='))) with
  | none =>
    rw [hname] at h
    cases h
  | some switch =>
    have hdefine : switch = .key .define ↔ cs.takeWhile (· ≠ '=') = "define".toList := by
      rw [lookup_longNames_iff hname, ← String.toList_inj, String.toList_ofList]
    rw [hname] at h
    cases switch with
    | key k => exact takes_takeKey_of_iff hdefine h
    | flag f =>
      rw [if_neg fun hname => by cases hdefine.mpr hname]
      dsimp only at h
      split at h
      · exact takes_takeFlag h
      · cases h

theorem readShort_key {c : Char} (h : shortNames.lookup c = some (.key k)) :
    r.readShort (c :: cs) = r.takeKey k (valueBehind? cs) := by
  rw [readShort, h]
  cases cs with
  | nil => rfl
  | cons d cs =>
    by_cases hd : d = '='
    · subst hd
      rfl
    · simp [valueBehind?, hd]

theorem takes_readShort {c : Char} (hc : c ≠ '-') (hargument : argument.toList = '-' :: c :: cs)
    (h : r.readShort (c :: cs) = .ok r') : Takes r (defineForm argument) r' := by
  rw [defineForm_short hc hargument]
  cases hname : shortNames.lookup c with
  | none =>
    rw [readShort, hname] at h
    cases h
  | some switch =>
    obtain ⟨hdefine, hstrict⟩ := lookup_shortNames hname
    cases switch with
    | key k =>
      rw [readShort_key hname] at h
      exact takes_takeKey_of_iff hdefine h
    | flag f =>
      -- the flags with a short name stop the reading
      rw [readShort, hname] at h
      cases htake : r.takeFlag f with
      | error reason =>
        simp only [htake] at h
        cases h
      | ok next => exact absurd (congrArg Switch.flag (eq_strict_of_takeFlag htake)) hstrict

/-! ### One argument, and all of them -/

/-- Over an argument of the given form the reader goes on to what it
expected. -/
theorem Takes.expects (h : Takes r (defineForm argument) r') (hopen : r.inputOnly = false)
    (hne : argument ≠ "--") : r'.expects rest = r.expects (argument :: rest) := by
  rw [Reader.expects, Reader.expects, h.inputOnly, hopen, if_neg (by simp), if_neg (by simp), h.idle, definesIn,
    if_neg hne, if_neg (by simp), h.awaits, h.defines, List.append_assoc]
  cases defineForm argument <;> simp [DefineForm.pieces]

/-- Behind `--` nothing changes what is expected. -/
theorem Takes.expects_inputOnly (h : Takes r .absent r') (hclosed : r.inputOnly = true) :
    r'.expects rest = r.expects (argument :: rest) := by
  rw [Reader.expects, Reader.expects, h.inputOnly, hclosed, if_pos rfl, if_pos rfl, h.defines]
  exact List.append_nil _

theorem expects_readValue (hopen : r.inputOnly = false) (hne : argument ≠ "--")
    (hform : defineForm argument = .absent) (h : r.readValue argument = .ok r') :
    r'.expects rest = r.expects (argument :: rest) := by
  unfold readValue at h
  split at h
  · rename_i k hpending
    obtain rfl := Except.ok.inj h
    cases k <;>
      simp [Reader.expects, Reader.defines, Reader.awaits, Pending.defines, definesIn, hopen,
        hpending, hne, hform]
  · exact Takes.expects (hform ▸ takes_takeInput h) hopen hne

/-- What the reader expects of all arguments does not change from one argument
to the next. -/
theorem expects_readArgument (h : r.readArgument argument = .ok r') :
    r'.expects rest = r.expects (argument :: rest) := by
  unfold readArgument at h
  cases hclosed : r.inputOnly with
  | true =>
    rw [hclosed, if_pos rfl] at h
    exact (takes_takeInput h).expects_inputOnly hclosed
  | false =>
    rw [hclosed, if_neg (by simp)] at h
    by_cases hend : argument = "--"
    · subst hend
      obtain rfl := Except.ok.inj h
      simp [Reader.expects, Reader.defines, definesIn, hclosed]
    · rw [if_neg hend] at h
      split at h
      · rename_i cs hcs
        exact (takes_readLong hcs h).expects hclosed hend
      · rename_i c cs hlong hcs
        exact (takes_readShort hlong hcs h).expects hclosed hend
      · rename_i _ hshort
        exact expects_readValue hclosed hend (defineForm_other hshort) h

theorem expects_nil (r : Reader) : r.expects [] = r.defines := by
  simp [expects, definesIn]

theorem expects_foldlM {arguments : List String} (h : arguments.foldlM readArgument r = .ok r') :
    r'.expects [] = r.expects arguments := by
  induction arguments generalizing r with
  | nil =>
    obtain rfl := Except.ok.inj h
    rfl
  | cons argument arguments ih =>
    rw [List.foldlM_cons] at h
    cases hfirst : r.readArgument argument with
    | error reason =>
      rw [hfirst] at h
      cases h
    | ok next =>
      rw [hfirst] at h
      rw [ih h, expects_readArgument hfirst]

end Reader

/-- Arguments that are accepted define the pieces of the values that they give
to `--define`. -/
theorem defines_read {arguments : List String} {a : Arguments} {input : Path}
    (h : read arguments = .ok (a, input)) :
    a.defines = (definesIn false arguments).flatMap Symbols.pieces := by
  unfold read at h
  cases hread : arguments.foldlM Reader.readArgument {} with
  | error reason =>
    rw [hread] at h
    cases h
  | ok r =>
    rw [hread] at h
    cases hsettle : r.settle with
    | error reason =>
      simp only [bind, Except.bind, hsettle] at h
      cases h
    | ok r' =>
      simp only [bind, Except.bind, hsettle] at h
      obtain ⟨a', hs, rfl⟩ := Reader.exists_settles hsettle
      split at h
      · cases h
      · obtain ⟨rfl, -⟩ := Prod.mk.inj (Except.ok.inj h)
        rw [hs.defines, ← Reader.expects_nil, Reader.expects_foldlM hread]
        rfl

/-! ## Arguments for given values -/

/-- Arguments that give values to `--define`, each in an argument of its own,
and an input folder. -/
def attachedArguments (values : List String) : List String :=
  values.map ("--define=" ++ ·) ++ ["src"]

theorem toList_attached (value : String) :
    ("--define=" ++ value).toList = '-' :: '-' :: ("define".toList ++ '=' :: value.toList) := by
  simp

/-- The name and the value in an argument that attaches a value. -/
theorem cut_attached (value : List Char) :
    ("define".toList ++ '=' :: value).takeWhile (· ≠ '=') = "define".toList ∧
      (("define".toList ++ '=' :: value).dropWhile (· ≠ '=')).tail? = some value :=
  (Text.append_cons_eq_iff (by decide)).mp rfl

theorem attached_ne (value : String) : "--define=" ++ value ≠ "--" := by
  intro h
  have hchars := congrArg String.toList h
  simp at hchars

theorem defineForm_attached (value : String) : defineForm ("--define=" ++ value) = .attached value := by
  obtain ⟨hname, hvalue⟩ := cut_attached value.toList
  rw [defineForm_long (toList_attached value), if_pos hname, hvalue, Key.form, String.ofList_toList]

theorem readArgument_attached (a : Arguments) (value : String) :
    Reader.readArgument { arguments := a } ("--define=" ++ value) =
      .ok { arguments := { a with defines := a.defines ++ Symbols.pieces value } } := by
  obtain ⟨hname, hvalue⟩ := cut_attached value.toList
  rw [Reader.readArgument, if_neg (by simp), if_neg (attached_ne value), toList_attached]
  simp only [Reader.readLong, hname, hvalue, Reader.takeKey, String.ofList_toList]
  rfl

theorem definesIn_attachedArguments (values : List String) :
    definesIn false (attachedArguments values) = values := by
  induction values with
  | nil => decide
  | cons value values ih =>
    rw [attachedArguments, List.map_cons, List.cons_append, definesIn, if_neg (attached_ne value),
      if_neg (by simp), defineForm_attached]
    exact congrArg (value :: ·) ih

theorem foldlM_attachedArguments (defines values : List String) :
    (attachedArguments values).foldlM Reader.readArgument { arguments := { defines } } =
      .ok { arguments := { defines := defines ++ values.flatMap Symbols.pieces }
            pending := .input "src" } := by
  induction values generalizing defines with
  | nil =>
    rw [List.flatMap_nil, List.append_nil]
    rfl
  | cons value values ih =>
    rw [attachedArguments, List.map_cons, List.cons_append, List.foldlM_cons, readArgument_attached]
    refine (ih _).trans ?_
    rw [List.flatMap_cons, List.append_assoc]

/-- Every sequence of values can be given to `--define`. -/
theorem exists_settings (values : List String) (environment? : Option String) :
    ∃ arguments s, settings arguments environment? = .ok s ∧ definesIn false arguments = values := by
  let a : Arguments := { input? := some ⟨"src"⟩, defines := values.flatMap Symbols.pieces }
  refine ⟨attachedArguments values, a.toSettings ⟨"src"⟩ environment?, ?_, definesIn_attachedArguments values⟩
  rw [settings, read, foldlM_attachedArguments]
  rfl

/-! ## The table -/

open Symbols (parseList IsItemOf IsSymbol)

/-- The lists of symbols that the environment and the arguments give. A
variable that is not set gives the empty list. -/
def symbolLists (arguments : List String) (environment? : Option String) : List String :=
  environment?.getD "" :: definesIn false arguments

theorem symbols_settings {arguments : List String} {environment? : Option String} {s : Settings}
    (h : settings arguments environment? = .ok s) :
    s.symbols = parseList (",".intercalate (symbolLists arguments environment?)) := by
  unfold settings at h
  cases hread : read arguments with
  | error reason =>
    rw [hread] at h
    cases h
  | ok accepted =>
    obtain ⟨a, input⟩ := accepted
    rw [hread] at h
    obtain rfl := Except.ok.inj h
    rw [Arguments.toSettings, defines_read hread, symbolLists, Symbols.addAll_parseList]

/-- The environment and the command line define symbols in the same way. Every
sequence of values can be given to `--define`. The table of accepted arguments
is the one of all the lists that they and the environment give, put together
with commas; so it holds the items of these lists, trimmed, but for empty ones,
and neither the order of the items matters nor how often and where they are
given. A comma between two lists makes the union of their tables, and the names
in a table, which are trimmed, not empty and without commas, make a list with
just this table. -/
theorem settings_symbols :
    (∀ values environment?, ∃ arguments s,
      settings arguments environment? = .ok s ∧ definesIn false arguments = values) ∧
    (∀ arguments environment? s, settings arguments environment? = .ok s →
      s.symbols = parseList (",".intercalate (symbolLists arguments environment?)) ∧
      (∀ name, name ∈ s.symbols ↔ name ≠ "" ∧
        ∃ item, IsItemOf (symbolLists arguments environment?) item ∧ Text.trim item = name) ∧
      (∀ name ∈ s.symbols, IsSymbol name) ∧
      ∀ arguments' environment?' s', settings arguments' environment?' = .ok s' →
        (∀ item, IsItemOf (symbolLists arguments environment?) item ↔
          IsItemOf (symbolLists arguments' environment?') item) →
        s.symbols = s'.symbols) ∧
    (∀ front back, parseList (front ++ "," ++ back) = parseList front ∪ parseList back) ∧
    ∀ names : List String, (∀ name ∈ names, IsSymbol name) →
      ∀ name, name ∈ parseList (",".intercalate names) ↔ name ∈ names := by
  have hmem {arguments : List String} {environment? : Option String} {s : Settings} (name : String)
      (h : settings arguments environment? = .ok s) : name ∈ s.symbols ↔ name ≠ "" ∧
        ∃ item, IsItemOf (symbolLists arguments environment?) item ∧ Text.trim item = name := by
    rw [symbols_settings h]
    exact Symbols.mem_parseList_intercalate_iff (List.cons_ne_nil _ _)
  refine ⟨exists_settings, fun arguments environment? s h =>
      ⟨symbols_settings h, fun name => hmem name h, ?_, ?_⟩,
    Symbols.parseList_append, fun names hnames name => ?_⟩
  · intro name hname
    rw [symbols_settings h, Symbols.mem_parseList_iff] at hname
    exact hname.isSymbol
  · intro arguments' environment?' s' h' hitems
    refine Std.ExtTreeSet.ext_mem fun name => ?_
    simp only [hmem name h, hmem name h', hitems]
  · rw [Symbols.parseList_intercalate hnames, Symbols.mem_ofNames]

/-- Options in all spellings, with empty and blank items. -/
def mixedOptions : List String :=
  ["-d", " A,B ", "src", "--define=C,,", "-dD\u00a0", "--define", "A", "-d=E"]

/-- The options are accepted, and define the same symbols as one list. -/
theorem settings_symbols_mixed : ∃ s, settings mixedOptions (some "F, \t,A") = .ok s ∧
    s.symbols = parseList "F, \t,A, A,B ,C,,,D\u00a0,A,E" ∧
    s.symbols.toList = ["A", "B", "C", "D", "E", "F"] := by
  have hok : (settings mixedOptions (some "F, \t,A")).isOk := by decide +kernel
  cases h : settings mixedOptions (some "F, \t,A") with
  | error reason =>
    rw [h] at hok
    cases hok
  | ok s =>
    have hsymbols := (settings_symbols.2.1 _ _ s h).1
    have hlist : ",".intercalate (symbolLists mixedOptions (some "F, \t,A")) =
        "F, \t,A, A,B ,C,,,D\u00a0,A,E" := by decide +kernel
    rw [hlist] at hsymbols
    exact ⟨s, rfl, hsymbols, by rw [hsymbols]; decide +kernel⟩

end Amalgam.CommandLine
