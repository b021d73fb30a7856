import KernelBridge.Lib.CString
import KernelBridge.Lib.Loop

/-!
# Interactive lines

`split_interactive_line` of `userspace/client.c`. It cuts a line into arguments in place: the
entries of `argv` are offsets into the line, and a NUL is stored behind each argument. The memory
of the model is the line up to its terminating NUL and nothing else, and an access outside of it
makes the result `none`.

A line is laid out from the arguments by `Layout.line`. `splitInteractiveLine_layout` is the round
trip, and `exists_splitInteractiveLine` says that no access of any run leaves the line.
-/

open CString

namespace Client

/-- `INTERACTIVE_MAX_ARGS`. -/
def interactiveMaxArgs : ℕ := 16

/-- The white space of `split_interactive_line`. -/
def isBlank (c : UInt8) : Bool := c = ' '.toUInt8 || c = '\t'.toUInt8 || c = '\n'.toUInt8

/-- `"`. -/
def quote : UInt8 := '"'.toUInt8

/-- The characters over which the loop for a quoted argument runs. -/
def inQuoted (c : UInt8) : Bool := c ≠ 0 && c ≠ quote

/-- The characters over which the loop for a bare argument runs. -/
def inBare (c : UInt8) : Bool := c ≠ 0 && !isBlank c

/-- The variables of the loop: the line, the place that is looked at, and `argv[0 .. argc]`. -/
structure Split where
  line : List UInt8
  p : ℕ
  argv : List ℕ
  deriving DecidableEq, Repr

/-- The value returned, with the line and the arguments as they are left. -/
structure Outcome where
  ret : ℤ
  line : List UInt8
  argv : List ℕ
  deriving DecidableEq, Repr

/-- `while (cond(*p)) p++`, where `rest` is the memory from `p` on. -/
def advanceWhile (cond : UInt8 → Bool) : List UInt8 → ℕ → Option ℕ
  | [], _ => none
  | c :: rest, p => if cond c then advanceWhile cond rest (p + 1) else some p

/-- The conversion of `argc` to the `int` that is returned. -/
def toInt (argc : ℕ) : ℤ := (Int32.ofNat argc).toInt

/-- What the function returns. -/
def Split.leave (s : Split) (ret : ℤ) : Outcome where
  ret := ret
  line := s.line
  argv := s.argv

/-- The argument that starts at `start` is read to `p`; `*p++ = '\0'` if `ends` holds of `*p`. -/
def Split.endToken (ends : UInt8 → Bool) (s : Split) (start p : ℕ) : Option Split := do
  let c ← s.line[p]?
  if ends c then
    return { line := s.line.set p 0, p := p + 1, argv := s.argv ++ [start] }
  return { line := s.line, p, argv := s.argv ++ [start] }

/-- One iteration of the outer loop, its test included. -/
def iteration (maxArgs : ℕ) (s : Split) : Option (Split ⊕ Outcome) := do
  let c ← s.line[s.p]?
  if c = 0 then return .inr (s.leave (toInt s.argv.length))
  let p ← advanceWhile isBlank (s.line.drop s.p) s.p
  let c ← s.line[p]?
  if c = 0 then return .inr (s.leave (toInt s.argv.length))
  if s.argv.length = maxArgs then return .inr (s.leave (-1))
  if c = quote then
    let q ← advanceWhile inQuoted (s.line.drop (p + 1)) (p + 1)
    return .inl (← s.endToken (· = quote) (p + 1) q)
  else
    let q ← advanceWhile inBare (s.line.drop p) p
    return .inl (← s.endToken (· ≠ 0) p q)

/-- The outer loop of `split_interactive_line`. -/
def splitBody (maxArgs : ℕ) (s : Split) : Split ⊕ Option Outcome :=
  match iteration maxArgs s with
  | none => .inr none
  | some (.inl s') => .inl s'
  | some (.inr outcome) => .inr (some outcome)

/-- `split_interactive_line`; `none` is an access outside the line. The loop has left after one
iteration for each character, at the latest. -/
def splitInteractiveLine (maxArgs : ℕ) (line : List UInt8) : Option Outcome :=
  (Loop.run (splitBody maxArgs) (line.length + 1) { line, p := 0, argv := [] }).join

/-! ## Layouts -/

/-- An argument as it is written on a line. -/
inductive Arg
  | quoted (chars : List UInt8) (h : ∀ c ∈ chars, c ≠ quote ∧ c ≠ 0)
  | bare (first : UInt8) (chars : List UInt8) (hfirst : first ≠ quote)
    (h : ∀ c ∈ first :: chars, isBlank c = false ∧ c ≠ 0)

/-- The string that an argument stands for. -/
def Arg.chars : Arg → List UInt8
  | quoted chars _ => chars
  | bare first chars _ _ => first :: chars

/-- The argument with its quotes. -/
def Arg.render : Arg → List UInt8
  | quoted chars _ => quote :: (chars ++ [quote])
  | bare first chars _ _ => first :: chars

/-- The arguments of a line with the white space before the first one and behind each. -/
structure Layout where
  lead : List UInt8
  items : List (Arg × List UInt8)
  lead_blank : ∀ c ∈ lead, isBlank c
  items_blank : ∀ x ∈ items, ∀ c ∈ x.2, isBlank c
  /-- Only behind the last argument there may be no white space. -/
  separated : ∀ x ∈ items.dropLast, x.2 ≠ []

/-- The arguments of a layout. -/
def Layout.args (l : Layout) : List Arg := l.items.map Prod.fst

/-- The line of a layout. -/
def Layout.line (l : Layout) : List UInt8 :=
  l.lead ++ l.items.flatMap fun x => x.1.render ++ x.2

/-! ## One iteration -/

/-- The loop at the front of `rest`, with `before` behind it. -/
def Split.at (before rest : List UInt8) (argv : List ℕ) : Split where
  line := before ++ (rest ++ [0])
  p := before.length
  argv := argv

/-- The pointer stops at the first character that ends the loop. -/
theorem advanceWhile_append {cond : UInt8 → Bool} {d : UInt8} (hd : cond d = false)
    (rest : List UInt8) : ∀ {front : List UInt8}, (∀ c ∈ front, cond c) → ∀ p : ℕ,
      advanceWhile cond (front ++ d :: rest) p = some (p + front.length)
  | [], _, p => by simp [advanceWhile, hd]
  | c :: front, hfront, p => by
    rw [List.cons_append, advanceWhile, if_pos (hfront c (by simp)),
      advanceWhile_append hd rest (fun x hx => hfront x (by simp [hx]))]
    simp only [List.length_cons, Option.some.injEq]
    omega

/-- A blank is no NUL. -/
theorem ne_zero_of_isBlank {c : UInt8} (h : isBlank c) : c ≠ 0 := by
  rintro rfl
  exact absurd h (by decide)

/-- With white space only, the loop leaves. -/
theorem iteration_blank (maxArgs : ℕ) (before : List UInt8) {lead : List UInt8} (argv : List ℕ)
    (hlead : ∀ c ∈ lead, isBlank c) :
    iteration maxArgs (.at before lead argv) =
      some (.inr ((Split.at before lead argv).leave (toInt argv.length))) := by
  have hskip : advanceWhile isBlank (lead ++ [0]) before.length = some (before.length + lead.length) :=
    advanceWhile_append (by decide) [] hlead _
  rcases lead with _ | ⟨c, lead⟩
  · simp [iteration, Split.at]
  · simp only [List.cons_append, List.length_cons] at hskip
    simp [iteration, Split.at, hskip]

/-- In front of an argument, the loop goes on with it unless there are too many. -/
theorem iteration_token (maxArgs : ℕ) (before : List UInt8) {lead : List UInt8} {c : UInt8}
    (rest : List UInt8) (argv : List ℕ) (hlead : ∀ c ∈ lead, isBlank c) (hblank : isBlank c = false)
    (hzero : c ≠ 0) :
    iteration maxArgs (.at before (lead ++ c :: rest) argv) =
      if argv.length = maxArgs then
        some (.inr ((Split.at before (lead ++ c :: rest) argv).leave (-1)))
      else if c = quote then do
        let q ← advanceWhile inQuoted (rest ++ [0]) (before.length + lead.length + 1)
        return .inl (← (Split.at before (lead ++ c :: rest) argv).endToken (· = quote)
          (before.length + lead.length + 1) q)
      else do
        let q ← advanceWhile inBare (c :: (rest ++ [0])) (before.length + lead.length)
        return .inl (← (Split.at before (lead ++ c :: rest) argv).endToken (· ≠ 0)
          (before.length + lead.length) q) := by
  have hskip : advanceWhile isBlank (lead ++ c :: (rest ++ [0])) before.length =
      some (before.length + lead.length) := advanceWhile_append hblank _ hlead _
  have hdrop : (before ++ (lead ++ c :: (rest ++ [0]))).drop (before.length + lead.length) =
      c :: (rest ++ [0]) := by
    simp [List.drop_append]
  have hdrop' : (before ++ (lead ++ c :: (rest ++ [0]))).drop (before.length + lead.length + 1) =
      rest ++ [0] := by
    rw [← List.drop_drop, hdrop, List.drop_one, List.tail_cons]
  obtain ⟨d, hd, hdzero⟩ : ∃ d, (Split.at before (lead ++ c :: rest) argv).line[
      (Split.at before (lead ++ c :: rest) argv).p]? = some d ∧ d ≠ 0 := by
    rcases lead with _ | ⟨d, lead⟩
    · exact ⟨c, by simp [Split.at], hzero⟩
    · exact ⟨d, by simp [Split.at], ne_zero_of_isBlank (hlead d (by simp))⟩
  rw [iteration, hd]
  simp [Split.at, hdzero, hskip, hzero, hdrop, hdrop']

/-- An argument that a character behind it ends: a NUL is stored there. -/
theorem endToken_ended (ends : UInt8 → Bool) (before front : List UInt8) {d : UInt8}
    (rest : List UInt8) (argv : List ℕ) (start : ℕ) (hd : ends d) {p : ℕ}
    (hp : p = before.length + front.length) :
    (Split.at before (front ++ d :: rest) argv).endToken ends start p =
      some (.at (before ++ (front ++ [0])) rest (argv ++ [start])) := by
  simp [Split.endToken, Split.at, hd, hp, Nat.add_assoc]

/-- An argument that the end of the line ends. -/
theorem endToken_at_end (ends : UInt8 → Bool) (before front : List UInt8) (argv : List ℕ)
    (start : ℕ) (hends : ends 0 = false) {p : ℕ} (hp : p = before.length + front.length) :
    (Split.at before front argv).endToken ends start p =
      some (.at (before ++ front) [] (argv ++ [start])) := by
  simp [Split.endToken, Split.at, hends, hp]

section Tokens

variable {maxArgs : ℕ} {lead chars : List UInt8} {argv : List ℕ}
  (hargs : argv.length ≠ maxArgs) (hlead : ∀ c ∈ lead, isBlank c)

include hargs hlead

/-- A quoted argument with its closing quote. -/
theorem iteration_quoted (before rest : List UInt8) (hchars : ∀ c ∈ chars, inQuoted c) :
    iteration maxArgs (.at before (lead ++ quote :: (chars ++ quote :: rest)) argv) =
      some (.inl (.at (before ++ (lead ++ quote :: chars ++ [0])) rest
        (argv ++ [before.length + lead.length + 1]))) := by
  have hscan := advanceWhile_append (show inQuoted quote = false by decide) (rest ++ [0]) hchars
    (before.length + lead.length + 1)
  have hend := endToken_ended (· = quote) before (lead ++ quote :: chars) rest argv
    (before.length + lead.length + 1) (decide_eq_true rfl)
    (p := before.length + lead.length + 1 + chars.length) (by simp; omega)
  rw [List.append_assoc, List.cons_append] at hend
  rw [iteration_token maxArgs before _ argv hlead (by decide) (by decide), if_neg hargs,
    if_pos rfl, List.append_assoc, List.cons_append, hscan]
  simp only [Option.bind_eq_bind, Option.bind_some, hend]
  rfl

/-- A quoted argument that is not closed. -/
theorem iteration_quoted_end (before : List UInt8) (hchars : ∀ c ∈ chars, inQuoted c) :
    iteration maxArgs (.at before (lead ++ quote :: chars) argv) =
      some (.inl (.at (before ++ (lead ++ quote :: chars)) []
        (argv ++ [before.length + lead.length + 1]))) := by
  have hscan := advanceWhile_append (show inQuoted 0 = false by decide) [] hchars
    (before.length + lead.length + 1)
  have hend := endToken_at_end (· = quote) before (lead ++ quote :: chars) argv
    (before.length + lead.length + 1) (by decide)
    (p := before.length + lead.length + 1 + chars.length) (by simp; omega)
  rw [iteration_token maxArgs before _ argv hlead (by decide) (by decide), if_neg hargs,
    if_pos rfl, hscan]
  simp only [Option.bind_eq_bind, Option.bind_some, hend]
  rfl

/-- A bare argument with a blank behind it. -/
theorem iteration_bare (before : List UInt8) {first d : UInt8} (rest : List UInt8)
    (hfirst : first ≠ quote) (hchars : ∀ c ∈ first :: chars, inBare c) (hd : isBlank d) :
    iteration maxArgs (.at before (lead ++ first :: (chars ++ d :: rest)) argv) =
      some (.inl (.at (before ++ (lead ++ first :: chars ++ [0])) rest
        (argv ++ [before.length + lead.length]))) := by
  have hbare : first ≠ 0 ∧ isBlank first = false := by simpa [inBare] using hchars first (by simp)
  have hscan := advanceWhile_append (show inBare d = false by simp [inBare, hd]) (rest ++ [0]) hchars
    (before.length + lead.length)
  have hend := endToken_ended (· ≠ 0) before (lead ++ first :: chars) rest argv
    (before.length + lead.length) (decide_eq_true (ne_zero_of_isBlank hd))
    (p := before.length + lead.length + (first :: chars).length) (by simp; omega)
  rw [List.append_assoc, List.cons_append] at hend
  rw [iteration_token maxArgs before _ argv hlead hbare.2 hbare.1, if_neg hargs,
    if_neg hfirst, List.append_assoc, List.cons_append, ← List.cons_append, hscan]
  simp only [Option.bind_eq_bind, Option.bind_some, hend]
  rfl

/-- A bare argument at the end of the line. -/
theorem iteration_bare_end (before : List UInt8) {first : UInt8}
    (hfirst : first ≠ quote) (hchars : ∀ c ∈ first :: chars, inBare c) :
    iteration maxArgs (.at before (lead ++ first :: chars) argv) =
      some (.inl (.at (before ++ (lead ++ first :: chars)) []
        (argv ++ [before.length + lead.length]))) := by
  have hbare : first ≠ 0 ∧ isBlank first = false := by simpa [inBare] using hchars first (by simp)
  have hscan := advanceWhile_append (show inBare 0 = false by decide) [] hchars
    (before.length + lead.length)
  have hend := endToken_at_end (· ≠ 0) before (lead ++ first :: chars) argv
    (before.length + lead.length) (by decide)
    (p := before.length + lead.length + (first :: chars).length) (by simp; omega)
  rw [iteration_token maxArgs before _ argv hlead hbare.2 hbare.1, if_neg hargs,
    if_neg hfirst, ← List.cons_append, hscan]
  simp only [Option.bind_eq_bind, Option.bind_some, hend]
  rfl

end Tokens

/-! ## Any line -/

/-- A list up to its first element without `cond`. -/
theorem exists_append_of_first (cond : UInt8 → Bool) (l : List UInt8) :
    ∃ front back, l = front ++ back ∧ (∀ c ∈ front, cond c) ∧
      (back = [] ∨ ∃ c tail, back = c :: tail ∧ cond c = false) := by
  refine ⟨l.takeWhile cond, l.dropWhile cond, List.takeWhile_append_dropWhile.symm,
    fun c hc => List.mem_takeWhile_imp hc, ?_⟩
  rcases hback : l.dropWhile cond with _ | ⟨c, tail⟩
  · exact .inl rfl
  · refine .inr ⟨c, tail, rfl, ?_⟩
    have hc := List.head_dropWhile_not cond (l := l) (by simp [hback])
    simpa [hback] using hc

/-- Every iteration on a line without a NUL leaves the loop, or takes an argument off the line. -/
theorem iteration_cases (maxArgs : ℕ) (before : List UInt8) {rest : List UInt8} (argv : List ℕ)
    (hrest : 0 ∉ rest) :
    (∃ ret, iteration maxArgs (.at before rest argv) =
        some (.inr ((Split.at before rest argv).leave ret))) ∨
      ∃ before' rest' start, iteration maxArgs (.at before rest argv) =
          some (.inl (.at before' rest' (argv ++ [start]))) ∧ argv.length ≠ maxArgs ∧ 0 ∉ rest' ∧
        rest'.length < rest.length ∧ before'.length + rest'.length = before.length + rest.length := by
  obtain ⟨lead, token, rfl, hlead, rfl | ⟨c, token, rfl, hc⟩⟩ := exists_append_of_first isBlank rest
  · rw [List.append_nil]
    exact .inl ⟨_, iteration_blank maxArgs before argv hlead⟩
  have hzero : c ≠ 0 := by
    rintro rfl
    exact hrest (by simp)
  have htoken : 0 ∉ token := fun h => hrest (by simp [h])
  by_cases hargs : argv.length = maxArgs
  · refine .inl ⟨-1, ?_⟩
    rw [iteration_token maxArgs before token argv hlead hc hzero, if_pos hargs]
  right
  by_cases hquote : c = quote
  · subst hquote
    obtain ⟨chars, tail, rfl, hchars, rfl | ⟨d, tail, rfl, hd⟩⟩ :=
      exists_append_of_first inQuoted token
    · rw [List.append_nil] at htoken ⊢
      exact ⟨_, _, _, iteration_quoted_end hargs hlead before hchars, hargs, by simp,
        by simp only [List.length_append, List.length_cons, List.length_nil]; omega, by simp⟩
    · -- the first character that is not in the argument closes it
      obtain rfl : d = quote := by
        have hdzero : d ≠ 0 := fun h => htoken (by simp [h])
        simpa [inQuoted, hdzero] using hd
      exact ⟨_, _, _, iteration_quoted hargs hlead before tail hchars, hargs,
        fun h => htoken (by simp [h]), by simp; omega, by simp; omega⟩
  · obtain ⟨chars, tail, rfl, hchars, rfl | ⟨d, tail, rfl, hd⟩⟩ := exists_append_of_first inBare token
    · rw [List.append_nil] at htoken ⊢
      refine ⟨_, _, _, iteration_bare_end hargs hlead before hquote ?_, hargs, by simp,
        by simp only [List.length_append, List.length_cons, List.length_nil]; omega, by simp⟩
      simpa [inBare, hzero, hc] using hchars
    · have hblank : isBlank d := by
        have hdzero : d ≠ 0 := fun h => htoken (by simp [h])
        simpa [inBare, hdzero] using hd
      refine ⟨_, _, _, iteration_bare hargs hlead before tail hquote ?_ hblank, hargs,
        fun h => htoken (by simp [h]), by simp; omega, by simp; omega⟩
      simpa [inBare, hzero, hc] using hchars

/-- No run on a NUL-terminated line accesses anything outside of it, or an entry of `argv` beyond
the last one. -/
theorem exists_splitInteractiveLine (maxArgs : ℕ) {line : List UInt8} (hline : 0 ∉ line) :
    ∃ outcome, splitInteractiveLine maxArgs (line ++ [0]) = some outcome ∧
      outcome.line.length = line.length + 1 ∧ outcome.argv.length ≤ maxArgs := by
  let I : Split → Prop := fun s => ∃ before rest, s = .at before rest s.argv ∧ 0 ∉ rest ∧
    before.length + rest.length = line.length ∧ s.argv.length ≤ maxArgs
  let Q : Option Outcome → Prop := fun r => ∃ outcome, r = some outcome ∧
    outcome.line.length = line.length + 1 ∧ outcome.argv.length ≤ maxArgs
  have hcont (s s' : Split) (hI : I s) (h : splitBody maxArgs s = .inl s') :
      I s' ∧ s'.line.length - s'.p < s.line.length - s.p := by
    obtain ⟨before, rest, hs, hrest, hlen, hargv⟩ := hI
    rw [hs, splitBody] at h
    rcases iteration_cases maxArgs before s.argv hrest with
      ⟨ret, hleave⟩ | ⟨before', rest', start, hnext, hargs, hrest', hlt, hlen'⟩
    · simp [hleave] at h
    · obtain rfl : Split.at before' rest' (s.argv ++ [start]) = s' := by simpa [hnext] using h
      refine ⟨⟨before', rest', rfl, hrest', hlen'.trans hlen, ?_⟩, ?_⟩
      · simp only [Split.at, List.length_append, List.length_singleton]
        omega
      · rw [hs]
        simp only [Split.at, List.length_append, List.length_singleton]
        omega
  have hexit (s : Split) (r : Option Outcome) (hI : I s) (h : splitBody maxArgs s = .inr r) : Q r := by
    obtain ⟨before, rest, hs, hrest, hlen, hargv⟩ := hI
    rw [hs, splitBody] at h
    rcases iteration_cases maxArgs before s.argv hrest with
      ⟨ret, hleave⟩ | ⟨before', rest', start, hnext, -⟩
    · obtain rfl : some ((Split.at before rest s.argv).leave ret) = r := by simpa [hleave] using h
      refine ⟨_, rfl, ?_, hargv⟩
      simp only [Split.leave, Split.at, List.length_append, List.length_singleton]
      omega
    · simp [hnext] at h
  have hstart : I (.at [] line []) := ⟨[], line, rfl, hline, by simp, by simp [Split.at]⟩
  have hfuel : (Split.at [] line []).line.length - (Split.at [] line []).p <
      (line ++ [0]).length + 1 := by simp [Split.at]
  obtain ⟨r, hrun, outcome, rfl, hout⟩ := Loop.run_of_variant
    (fun s : Split => s.line.length - s.p) hcont hexit hstart hfuel
  exact ⟨outcome, by rw [splitInteractiveLine]; exact congrArg Option.join hrun, hout⟩

/-! ## Round trip -/

/-- What a layout still has to give, once a part of its arguments has been taken off. -/
theorem Layout.cases (l : Layout) :
    l.items = [] ∨ ∃ a sep, ∃ rest : Layout, l.items = (a, sep) :: rest.items ∧ rest.lead = sep ∧
      (sep = [] → rest.items = []) := by
  rcases hitems : l.items with _ | ⟨⟨a, sep⟩, items⟩
  · exact .inl rfl
  refine .inr ⟨a, sep, ⟨sep, items, ?_, ?_, ?_⟩, rfl, rfl, ?_⟩
  · exact l.items_blank (a, sep) (by simp [hitems])
  · exact fun x hx => l.items_blank x (by simp [hitems, hx])
  · intro x hx
    refine l.separated x ?_
    rw [hitems, List.dropLast_cons_of_ne_nil (List.ne_nil_of_mem (List.dropLast_subset _ hx))]
    exact List.mem_cons_of_mem _ hx
  · intro hsep
    by_contra hne
    refine l.separated (a, sep) ?_ hsep
    rw [hitems, List.dropLast_cons_of_ne_nil hne]
    exact List.mem_cons_self

/-- Behind its white space a layout starts with its first argument. -/
theorem Layout.line_cons {l rest : Layout} {a : Arg} {sep : List UInt8}
    (h : l.items = (a, sep) :: rest.items) (hlead : rest.lead = sep) :
    l.line = l.lead ++ (a.render ++ rest.line) := by
  simp [Layout.line, h, hlead]

/-- Without arguments, the line is its leading blanks. -/
theorem Layout.line_nil {l : Layout} (h : l.items = []) : l.line = l.lead := by
  simp [Layout.line, h]

/-- The arguments `done` have been taken off the line, of which `before` is the part behind the loop,
and the entries of `argv` are their strings. The last one may have no NUL of its own, if nothing but
the end of the line is left. -/
structure Taken (before : List UInt8) (argv : List ℕ) (done : List Arg) (rest : Layout) : Prop where
  count : argv.length = done.length
  strings : ∀ tail, (rest.line = [] → tail = [0]) →
    argv.map (stringAt (before ++ tail)) = done.map Arg.chars

/-- A further argument. The strings of the others do not depend on what is in front of the loop. -/
theorem Taken.snoc {before added : List UInt8} {argv : List ℕ} {done : List Arg} {l rest : Layout}
    {a : Arg} {start : ℕ} (h : Taken before argv done l) (hline : l.line ≠ [])
    (hstring : ∀ tail, (rest.line = [] → tail = [0]) →
      stringAt (before ++ added ++ tail) start = a.chars) :
    Taken (before ++ added) (argv ++ [start]) (done ++ [a]) rest where
  count := by simp [h.count]
  strings tail htail := by
    rw [List.map_append, List.map_singleton, hstring tail htail, List.append_assoc,
      h.strings _ fun hnil => absurd hnil hline, List.map_append, List.map_singleton]

/-- The characters of an argument are no NULs. -/
theorem Arg.chars_ne_zero (a : Arg) : ∀ c ∈ a.chars, c ≠ 0 := by
  cases a with
  | quoted chars h => exact fun c hc => (h c hc).2
  | bare first chars hfirst h => exact fun c hc => (h c hc).2

/-- An argument is rendered as something. -/
theorem Arg.render_ne_nil (a : Arg) : a.render ≠ [] := by
  cases a <;> simp [Arg.render]

/-- One iteration takes the next argument off a layout. -/
theorem iteration_layout {maxArgs : ℕ} {before : List UInt8} {argv : List ℕ} {done : List Arg}
    {l rest : Layout} {a : Arg} {sep : List UInt8} (h : Taken before argv done l)
    (hargs : argv.length ≠ maxArgs) (hitems : l.items = (a, sep) :: rest.items)
    (hlead : rest.lead = sep) (hsep : sep = [] → rest.items = []) :
    ∃ before' start, ∃ rest' : Layout, rest'.items = rest.items ∧
      iteration maxArgs (.at before l.line argv) =
        some (.inl (.at before' rest'.line (argv ++ [start]))) ∧
      Taken before' (argv ++ [start]) (done ++ [a]) rest' := by
  have hline := Layout.line_cons hitems hlead
  have hne : l.line ≠ [] := by simp [hline, a.render_ne_nil]
  have hzero := a.chars_ne_zero
  cases a with
  | quoted chars hchars =>
    have hin : ∀ c ∈ chars, inQuoted c := fun c hc => by simp [inQuoted, hchars c hc]
    have hnext := iteration_quoted hargs l.lead_blank before rest.line hin
    refine ⟨before ++ (l.lead ++ quote :: chars ++ [0]), before.length + l.lead.length + 1, rest, rfl,
      ?_, h.snoc hne fun tail _ => ?_⟩
    · rw [hline, ← hnext]
      simp [Arg.render]
    · have hoffset : before.length + l.lead.length + 1 = (before ++ l.lead ++ [quote]).length := by
        simp [Nat.add_assoc]
      have hstring := stringAt_append hzero tail hoffset
      simpa [Arg.chars] using hstring
  | bare first chars hfirst hchars =>
    have hin : ∀ c ∈ first :: chars, inBare c := fun c hc => by simp [inBare, hchars c hc]
    have hoffset : before.length + l.lead.length = (before ++ l.lead).length := by simp
    rcases sep with _ | ⟨d, sep⟩
    · -- nothing follows, and the end of the line ends the argument
      have hnil : rest.line = [] := by rw [Layout.line_nil (hsep rfl), hlead]
      have hnext := iteration_bare_end hargs l.lead_blank before hfirst hin
      refine ⟨before ++ (l.lead ++ first :: chars), before.length + l.lead.length, rest, rfl, ?_,
        h.snoc hne fun tail htail => ?_⟩
      · rw [hline, hnil, ← hnext]
        simp [Arg.render]
      · have hstring := stringAt_append hzero [] hoffset
        simpa [htail hnil, Arg.chars] using hstring
    · have hblank : ∀ c ∈ d :: sep, isBlank c := hlead ▸ rest.lead_blank
      have hnext := iteration_bare hargs l.lead_blank before
        (sep ++ rest.items.flatMap fun x => x.1.render ++ x.2) hfirst hin (hblank d (by simp))
      refine ⟨before ++ (l.lead ++ first :: chars ++ [0]), before.length + l.lead.length,
        { rest with lead := sep, lead_blank := fun c hc => hblank c (by simp [hc]) }, rfl, ?_,
        h.snoc hne fun tail _ => ?_⟩
      · rw [hline, Layout.line, Layout.line, hlead, ← hnext]
        simp [Arg.render]
      · have hstring := stringAt_append hzero tail hoffset
        simpa [Arg.chars] using hstring

/-- What the loop leaves with, on a line that is laid out from the arguments `args`. -/
structure SplitsInto (maxArgs : ℕ) (args : List Arg) (outcome : Outcome) : Prop where
  strings : args.length ≤ maxArgs → outcome.ret = toInt args.length ∧
    outcome.argv.map (stringAt outcome.line) = args.map Arg.chars
  tooMany : maxArgs < args.length → outcome.ret = -1

/-- The loop, with the arguments `done` behind it and the layout `rest` in front. -/
def Splitting (maxArgs : ℕ) (args : List Arg) (s : Split) : Prop :=
  ∃ before done, ∃ rest : Layout, s = .at before rest.line s.argv ∧ args = done ++ rest.args ∧
    Taken before s.argv done rest ∧ done.length ≤ maxArgs

/-- Every iteration keeps the loop on its way through the layout, or leaves as it should. -/
theorem Splitting.step {maxArgs : ℕ} {args : List Arg} {s : Split}
    (h : Splitting maxArgs args s) :
    (∃ s', splitBody maxArgs s = .inl s' ∧ Splitting maxArgs args s') ∨
      ∃ outcome, splitBody maxArgs s = .inr (some outcome) ∧ SplitsInto maxArgs args outcome := by
  obtain ⟨before, done, rest, hs, rfl, htaken, hle⟩ := h
  rcases rest.cases with hnil | ⟨a, sep, rest', hitems, hlead, hsep⟩
  · -- only white space is left
    have hleave := iteration_blank maxArgs before s.argv (Layout.line_nil hnil ▸ rest.lead_blank)
    rw [← hs] at hleave
    refine .inr ⟨_, by rw [splitBody, hleave], ?_, fun h => ?_⟩
    · intro _
      refine ⟨by simp [Split.leave, Layout.args, hnil, htaken.count], ?_⟩
      have hstrings := htaken.strings (rest.line ++ [0]) fun h => by rw [h, List.nil_append]
      have hline : s.line = before ++ (rest.line ++ [0]) := by rw [hs]; rfl
      simpa [Split.leave, Layout.args, hnil, hline] using hstrings
    · simp [Layout.args, hnil] at h
      omega
  have hargs : rest.args = a :: rest'.args := by simp [Layout.args, hitems]
  by_cases hfull : s.argv.length = maxArgs
  · have hrender : ∃ c tail, a.render = c :: tail ∧ isBlank c = false ∧ c ≠ 0 := by
      cases a with
      | quoted chars _ => exact ⟨quote, chars ++ [quote], rfl, by decide, by decide⟩
      | bare first chars _ h => exact ⟨first, chars, rfl, h first (by simp)⟩
    obtain ⟨c, tail, hrender, hblank, hzero⟩ := hrender
    have hleave := iteration_token maxArgs before (tail ++ rest'.line) s.argv rest.lead_blank hblank
      hzero
    have hline : rest.lead ++ c :: (tail ++ rest'.line) = rest.line := by
      rw [Layout.line_cons hitems hlead, hrender, List.cons_append]
    rw [hline, if_pos hfull, ← hs] at hleave
    refine .inr ⟨_, by rw [splitBody, hleave], fun h => ?_, fun _ => rfl⟩
    rw [htaken.count] at hfull
    simp [hargs] at h
    omega
  · obtain ⟨before', start, rest'', hsame, hnext, htaken'⟩ :=
      iteration_layout htaken hfull hitems hlead hsep
    rw [← hs] at hnext
    refine .inl ⟨_, by rw [splitBody, hnext], before', done ++ [a], rest'', rfl, ?_, htaken', ?_⟩
    · simp [Layout.args, hsame, hitems]
    · rw [htaken.count] at hfull
      simp only [List.length_append, List.length_singleton]
      omega

/-- The line ends at its terminating NUL. -/
theorem Layout.nul_notMem (l : Layout) : 0 ∉ l.line := by
  have hblank {lead : List UInt8} (h : ∀ c ∈ lead, isBlank c) : 0 ∉ lead :=
    fun h0 => ne_zero_of_isBlank (h 0 h0) rfl
  have hrender (a : Arg) : 0 ∉ a.render := by
    have hquote : (0 : UInt8) ≠ quote := by decide
    have hchars : 0 ∉ a.chars := fun h0 => a.chars_ne_zero 0 h0 rfl
    cases a <;> simp_all [Arg.render, Arg.chars]
  simp only [Layout.line, List.mem_append, List.mem_flatMap, not_or, not_exists, not_and]
  exact ⟨hblank l.lead_blank, fun x hx => ⟨hrender x.1, hblank (l.items_blank x hx)⟩⟩

/-- The line of a layout is split into its arguments. -/
theorem splitInteractiveLine_splitsInto (maxArgs : ℕ) (l : Layout) :
    ∃ outcome, splitInteractiveLine maxArgs (l.line ++ [0]) = some outcome ∧
      SplitsInto maxArgs l.args outcome := by
  obtain ⟨outcome, hsplit, -⟩ := exists_splitInteractiveLine maxArgs l.nul_notMem
  refine ⟨outcome, hsplit, ?_⟩
  have hrun := Option.join_eq_some_iff.mp hsplit
  have hstart : Splitting maxArgs l.args { line := l.line ++ [0], p := 0, argv := [] } :=
    ⟨[], [], l, rfl, rfl, ⟨rfl, fun _ _ => rfl⟩, Nat.zero_le _⟩
  have hresult := Loop.run_invariant (Q := fun r => ∀ outcome, r = some outcome →
    SplitsInto maxArgs l.args outcome) ?_ ?_ hstart hrun
  · exact hresult outcome rfl
  · intro s s' h hstep
    obtain ⟨s'', heq, hs''⟩ | ⟨_, heq, -⟩ := h.step
    · rw [heq, Sum.inl.injEq] at hstep
      exact hstep ▸ hs''
    · rw [heq] at hstep
      cases hstep
  · intro s r h hstep
    obtain ⟨_, heq, -⟩ | ⟨outcome, heq, hout⟩ := h.step
    · rw [heq] at hstep
      cases hstep
    · rw [heq, Sum.inr.injEq] at hstep
      rintro _ rfl
      exact Option.some.inj hstep ▸ hout

/-- A count that fits is returned as it is. -/
theorem toInt_of_lt {n : ℕ} (h : n < 2 ^ 31) : toInt n = n := by
  rw [toInt, Int32.toInt_ofNat', Int.bmod_eq_of_le] <;> simp only [Int32.size] <;> omega

/-- A line splits back into the arguments that it was laid out from, or is rejected if they are too
many, and no run reads or writes outside of its line. -/
theorem splitInteractiveLine_layout :
    (∀ (maxArgs : ℕ) (l : Layout), l.args.length ≤ maxArgs →
      ∃ outcome, splitInteractiveLine maxArgs (l.line ++ [0]) = some outcome ∧
        outcome.ret = toInt l.args.length ∧ (maxArgs < 2 ^ 31 → outcome.ret = l.args.length) ∧
        outcome.argv.map (stringAt outcome.line) = l.args.map Arg.chars) ∧
    (∀ (maxArgs : ℕ) (l : Layout), maxArgs < l.args.length →
      ∃ outcome, splitInteractiveLine maxArgs (l.line ++ [0]) = some outcome ∧ outcome.ret = -1) ∧
    ∀ (maxArgs : ℕ) (line : List UInt8), 0 ∉ line →
      ∃ outcome, splitInteractiveLine maxArgs (line ++ [0]) = some outcome ∧
        outcome.line.length = line.length + 1 ∧ outcome.argv.length ≤ maxArgs := by
  refine ⟨fun maxArgs l h => ?_, fun maxArgs l h => ?_,
    fun maxArgs line hline => exists_splitInteractiveLine maxArgs hline⟩
  · obtain ⟨outcome, hsplit, hinto⟩ := splitInteractiveLine_splitsInto maxArgs l
    obtain ⟨hret, hstrings⟩ := hinto.strings h
    exact ⟨outcome, hsplit, hret, fun hmax => hret.trans (toInt_of_lt (by omega)), hstrings⟩
  · obtain ⟨outcome, hsplit, hinto⟩ := splitInteractiveLine_splitsInto maxArgs l
    exact ⟨outcome, hsplit, hinto.tooMany h⟩

/-- `write "a b"`, with its newline. -/
def Layout.writeLine : Layout where
  lead := []
  items := [(.bare 'w'.toUInt8 (['r', 'i', 't', 'e'].map Char.toUInt8) (by decide)
      (by decide +kernel),
      [' '.toUInt8]),
    (.quoted (['a', ' ', 'b'].map Char.toUInt8) (by decide +kernel), ['\n'.toUInt8])]
  lead_blank := nofun
  items_blank := by decide +kernel
  separated := by decide +kernel

/-- The line of a write with a quoted argument. -/
theorem splitInteractiveLine_layout_writeLine :
    (∃ outcome, splitInteractiveLine interactiveMaxArgs (Layout.writeLine.line ++ [0]) =
        some outcome ∧ outcome.ret = 2 ∧
        outcome.argv.map (stringAt outcome.line) = Layout.writeLine.args.map Arg.chars) ∧
      (∃ outcome, splitInteractiveLine 1 (Layout.writeLine.line ++ [0]) = some outcome ∧
        outcome.ret = -1) ∧
      ∃ outcome, splitInteractiveLine 1 ([quote] ++ [0]) = some outcome ∧
        outcome.line.length = 2 ∧ outcome.argv.length ≤ 1 := by
  obtain ⟨hfew, hmany, hany⟩ := splitInteractiveLine_layout
  obtain ⟨outcome, hsplit, -, hret, hstrings⟩ := hfew interactiveMaxArgs .writeLine (by decide)
  exact ⟨⟨outcome, hsplit, hret (by decide), hstrings⟩, hmany 1 .writeLine (by decide),
    hany 1 [quote] (by decide)⟩

end Client
