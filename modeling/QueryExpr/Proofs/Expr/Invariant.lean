import QueryExpr.Proofs.Expr.Acceptance

/-!
# What a state has read

Every token that was taken is accounted for by the state it led to: by a frame, by the operand that
is complete, or by what the next token is expected to be. No token counts twice, and their order is
kept. Taking one more token adds it at the end.

The account also records why the finished tree will be canonical: each pending operator was allowed
to take its left operand, and its frames allow it to take its right one.
-/

namespace QueryExpr

/-- The tokens of arguments that are complete, each followed by its comma. -/
inductive ArgumentsRead : List Expr → List Token → Prop where
  | nil : ArgumentsRead [] []
  | snoc {es : List Expr} {e : Expr} {ts us : List Token} (i : Nat) (hes : ArgumentsRead es ts)
      (he : e.Yields us) (canonical : e.Canonical) (operand : e.IsOperand) :
      ArgumentsRead (es ++ [e]) (ts ++ (us ++ [⟨.comma, i⟩]))

/-- The tokens that opened the frames, with those of everything complete inside them. -/
inductive FramesRead : List Frame → List Token → Prop where
  | nil : FramesRead [] []
  | operator {left : Expr} {op : Operator} {level : Nat} {frames : List Frame} {ts us : List Token}
      (i : Nat) (hframes : FramesRead frames ts) (hleft : left.Yields us)
      (canonical : left.Canonical) (binds : left.BindsAtLeast op.precedence)
      (admits : Frame.Admits op frames) :
      FramesRead (.operator left op level :: frames) (ts ++ (us ++ [⟨.operator op, i⟩]))
  | paren {level : Nat} {frames : List Frame} {ts : List Token} (i : Nat)
      (hframes : FramesRead frames ts) :
      FramesRead (.paren level :: frames) (ts ++ [⟨.parenLeft, i⟩])
  | call {name : String} {arguments : List Expr} {level : Nat} {frames : List Frame}
      {ts us : List Token} (i j : Nat) (hname : Text.sameIgnoringCase name "null" = false)
      (hframes : FramesRead frames ts) (harguments : ArgumentsRead arguments us) :
      FramesRead (.call name arguments level :: frames)
        (ts ++ (⟨.name name, i⟩ :: ⟨.parenLeft, j⟩ :: us))

/-- The tokens of the frames and then those of a canonical operand that the frames wait for. -/
structure OperandRead (frames : List Frame) (e : Expr) (ts : List Token) : Prop where
  parts : ∃ us vs, ts = us ++ vs ∧ FramesRead frames us ∧ e.Yields vs
  canonical : e.Canonical
  accepts : Frame.Accepts e frames

/-- The tokens that led to a state. -/
inductive ParseState.Read : ParseState → List Token → Prop where
  | operand {frames : List Frame} {level : Nat} {ts : List Token} (h : FramesRead frames ts) :
      Read { expecting := .operand, frames, level } ts
  | argument {frames : List Frame} {name : String} {outer level : Nat} {ts : List Token}
      (h : FramesRead (.call name [] outer :: frames) ts) :
      Read { expecting := .argument, frames := .call name [] outer :: frames, level } ts
  | digits {frames : List Frame} {level : Nat} {ts : List Token} (minus : Token)
      (hminus : minus.lexeme = .operator .sub) (h : FramesRead frames ts) :
      Read { expecting := .digits minus, frames, level } (ts ++ [minus])
  | afterName {frames : List Frame} {level : Nat} {ts : List Token} {name : String} (i : Nat)
      (hname : Text.sameIgnoringCase name "null" = false) (h : FramesRead frames ts) :
      Read { expecting := .afterName name, frames, level } (ts ++ [⟨.name name, i⟩])
  | column {frames : List Frame} {level : Nat} {ts : List Token} {name : String} (i j : Nat)
      (hname : Text.sameIgnoringCase name "null" = false) (h : FramesRead frames ts) :
      Read { expecting := .column name, frames, level } (ts ++ [⟨.name name, i⟩, ⟨.dot, j⟩])
  | continuation {frames : List Frame} {level : Nat} {ts : List Token} {e : Expr}
      (operand : e.IsOperand) (h : OperandRead frames e ts) :
      Read { expecting := .continuation e, frames, level } ts

/-- One more argument completes the list that was begun. -/
theorem ArgumentsRead.yieldsAll {es fs : List Expr} {f : Expr} {ts us : List Token}
    (h : ArgumentsRead es ts) (hlast : Expr.YieldsAll (f :: fs) us) :
    Expr.YieldsAll (es ++ f :: fs) (ts ++ us) := by
  induction h generalizing f fs us with
  | nil => exact hlast
  | @snoc es e ts vs i hes he _ _ ih =>
      have hcons := ih (.cons i he hlast)
      simpa only [List.append_assoc, List.cons_append, List.nil_append] using hcons

theorem ArgumentsRead.eq_nil {ts : List Token} (h : ArgumentsRead [] ts) : ts = [] := by
  generalize hes : ([] : List Expr) = es at h
  cases h with
  | nil => rfl
  | snoc => simp at hes

theorem ArgumentsRead.canonical {es : List Expr} {ts : List Token} (h : ArgumentsRead es ts) :
    ∀ e ∈ es, e.Canonical ∧ e.IsOperand := by
  induction h with
  | nil => exact fun e he => absurd he List.not_mem_nil
  | snoc i hes he canonical operand ih =>
      intro e hmem
      rcases List.mem_append.mp hmem with hmem | hmem
      · exact ih e hmem
      · obtain rfl := List.mem_singleton.mp hmem
        exact ⟨canonical, operand⟩

namespace OperandRead

variable {frames : List Frame} {e : Expr} {ts : List Token}

theorem of_isOperand {us vs : List Token} (hframes : FramesRead frames us) (he : e.Yields vs)
    (canonical : e.Canonical) (operand : e.IsOperand) : OperandRead frames e (us ++ vs) :=
  ⟨⟨us, vs, rfl, hframes, he⟩, canonical, Frame.accepts_of_isOperand operand frames⟩

/-- The tokens of a pending operator and its right operand are those of the application. -/
theorem binary {left right : Expr} {op : Operator} {level : Nat}
    (h : OperandRead (.operator left op level :: frames) right ts) :
    OperandRead frames (.binary op left right) ts := by
  obtain ⟨⟨us, vs, rfl, hframes, hright⟩, canonical, accepts⟩ := h
  cases hframes with
  | @operator _ _ _ _ ws xs i hframes hleft leftCanonical binds admits =>
      refine ⟨⟨ws, xs ++ ⟨.operator op, i⟩ :: vs, ?_, hframes, .binary i hleft hright⟩,
        .binary leftCanonical canonical binds (Frame.accepts_operator_iff.mp accepts), ?_⟩
      · simp only [List.append_assoc, List.cons_append, List.nil_append]
      · rintro _ _ _ ⟨⟩
        exact admits

/-- Closing pending operators keeps the account. What is left over accepts no operator that binds as
tightly as those that were closed. -/
theorem close {precedence : Nat} (h : OperandRead frames e ts)
    (binds : e.BindsAtLeast precedence) (level : Nat) :
    ∃ whole inner rest, Frame.close precedence e level frames = (whole, inner, rest) ∧
      OperandRead rest whole ts ∧ whole.BindsAtLeast precedence ∧
      ∀ op left outer below, rest = .operator left op outer :: below →
        op.precedence < precedence := by
  induction frames generalizing e level with
  | nil => exact ⟨e, level, [], rfl, h, binds, by simp⟩
  | cons frame frames ih =>
      cases frame with
      | operator left op outer =>
          by_cases hop : precedence ≤ op.precedence
          · obtain ⟨whole, inner, rest, hclose, hread⟩ := ih h.binary hop outer
            exact ⟨whole, inner, rest, (Frame.close_operator_of_le hop ..).trans hclose, hread⟩
          · have hlt := Nat.lt_of_not_le hop
            refine ⟨e, level, _, Frame.close_operator_of_lt hlt .., h, binds, ?_⟩
            rintro _ _ _ _ ⟨⟩
            exact hlt
      | paren outer => exact ⟨e, level, _, rfl, h, binds, by simp⟩
      | call name arguments outer => exact ⟨e, level, _, rfl, h, binds, by simp⟩

/-- Where a call waits, the complete operand is its next argument. -/
theorem argument {name : String} {arguments : List Expr} {outer : Nat}
    (h : OperandRead (.call name arguments outer :: frames) e ts) : e.IsOperand := by
  cases e with
  | binary op left right => exact h.accepts op left right rfl
  | _ => trivial

end OperandRead

namespace ParseState

variable {limit level : Nat} {frames : List Frame} {e : Expr} {ts : List Token} {t : Token}
variable {s s' : ParseState}

theorem read_of_beginOperand (limit level : Nat) (h : FramesRead frames ts)
    (hs : beginOperand limit frames level t = .ok s') : s'.Read (ts ++ [t]) := by
  obtain ⟨lexeme, i⟩ := t
  cases lexeme with
  | parenLeft =>
      obtain rfl := eq_of_within ((step_parenLeft limit i).symm.trans hs)
      exact .operand (.paren i h)
  | operator op =>
      cases op with
      | sub =>
          obtain rfl := Except.ok.inj hs
          exact .digits _ rfl h
      | _ => cases hs
  | number text =>
      obtain rfl := Except.ok.inj hs
      exact .continuation trivial (.of_isOperand h (.number i) .number trivial)
  | string raw =>
      obtain rfl := Except.ok.inj hs
      exact .continuation trivial (.of_isOperand h (.string i) .string trivial)
  | name word =>
      by_cases hword : Text.sameIgnoringCase word "null" = true
      · obtain rfl := Except.ok.inj ((step_null hword limit i).symm.trans hs)
        exact .continuation trivial (.of_isOperand h (.null i hword) .null trivial)
      · have hname := Bool.eq_false_iff.mpr hword
        obtain rfl := Except.ok.inj ((step_name hname limit i).symm.trans hs)
        exact .afterName i hname h
  | _ => cases hs

theorem read_pending {op : Operator} (h : OperandRead frames e ts)
    (binds : e.BindsAtLeast op.precedence) (admits : Frame.Admits op frames) (i level : Nat) :
    Read { expecting := .operand, frames := .operator e op level :: frames, level }
      (ts ++ [⟨.operator op, i⟩]) := by
  obtain ⟨us, vs, rfl, hframes, he⟩ := h.parts
  rw [List.append_assoc]
  exact .operand (.operator i hframes he h.canonical binds admits)

/-- An operator after a complete operand becomes pending, with everything that binds as tightly
before it on its left. -/
theorem read_of_operator {op : Operator} {i : Nat} (h : OperandRead frames e ts)
    (operand : e.IsOperand) (hs : continueFrom limit e frames level ⟨.operator op, i⟩ = .ok s') :
    s'.Read (ts ++ [⟨.operator op, i⟩]) := by
  obtain ⟨whole, inner, rest, hclose, hread, binds, below⟩ :=
    h.close (operand.bindsAtLeast op.precedence) level
  simp only [continueFrom] at hs
  rw [hclose] at hs
  cases rest with
  | nil =>
      obtain rfl := eq_of_within ((deepen_bind limit inner _).symm.trans hs)
      exact read_pending hread binds trivial i _
  | cons frame rest =>
      cases frame with
      | operator left outer k =>
          obtain rfl := eq_of_within ((deepen_bind limit inner _).symm.trans hs)
          exact read_pending hread binds (below _ _ _ _ rfl) i _
      | paren k =>
          obtain rfl := eq_of_within ((deepen_bind limit inner _).symm.trans hs)
          exact read_pending hread binds trivial i _
      | call => cases hs

/-- A comma after a complete operand ends an argument. -/
theorem read_of_comma {i : Nat} (h : OperandRead frames e ts)
    (hs : continueFrom limit e frames level ⟨.comma, i⟩ = .ok s') :
    s'.Read (ts ++ [⟨.comma, i⟩]) := by
  obtain ⟨whole, inner, rest, hclose, hread, _, _⟩ := h.close e.bindsAtLeast_zero level
  simp only [continueFrom] at hs
  rw [hclose] at hs
  cases rest with
  | nil => cases hs
  | cons frame rest =>
      cases frame with
      | call name arguments outer =>
          obtain rfl := Except.ok.inj hs
          obtain ⟨us, vs, rfl, hframes, hwhole⟩ := hread.parts
          cases hframes with
          | @call _ _ _ _ us ws j k hname hframes harguments =>
              have hsnoc := harguments.snoc i hwhole hread.canonical hread.argument
              have hcall : FramesRead (.call name (arguments ++ [whole]) outer :: rest) _ :=
                .call j k hname hframes hsnoc
              apply Read.operand
              simpa only [List.append_assoc, List.cons_append] using hcall
      | _ => cases hs

/-- A closing parenthesis after a complete operand ends a parenthesis or a call. -/
theorem read_of_parenRight {i : Nat} (h : OperandRead frames e ts)
    (hs : continueFrom limit e frames level ⟨.parenRight, i⟩ = .ok s') :
    s'.Read (ts ++ [⟨.parenRight, i⟩]) := by
  obtain ⟨whole, inner, rest, hclose, hread, _, _⟩ := h.close e.bindsAtLeast_zero level
  simp only [continueFrom] at hs
  rw [hclose] at hs
  obtain ⟨us, vs, rfl, hframes, hwhole⟩ := hread.parts
  cases hframes with
  | nil => cases hs
  | operator => cases hs
  | @paren outer rest us j hframes =>
      obtain rfl := Except.ok.inj hs
      have hparen := OperandRead.of_isOperand hframes (.paren j i hwhole)
        (.paren hread.canonical) trivial
      refine .continuation trivial ?_
      simpa only [List.append_assoc, List.cons_append, List.nil_append] using hparen
  | @call name arguments outer rest us ws j k hname hframes harguments =>
      obtain rfl := Except.ok.inj hs
      have hyields := harguments.yieldsAll (.single hwhole)
      have hcall := OperandRead.of_isOperand hframes (.call j k i hname hyields)
        (.call ?_ ?_) trivial
      · refine .continuation trivial ?_
        simpa only [List.append_assoc, List.cons_append, List.nil_append] using hcall
      all_goals
        intro f hf
        rcases List.mem_append.mp hf with hf | hf
      · exact (harguments.canonical f hf).1
      · exact List.mem_singleton.mp hf ▸ hread.canonical
      · exact (harguments.canonical f hf).2
      · exact List.mem_singleton.mp hf ▸ hread.argument

theorem read_of_continueFrom (limit level : Nat) (h : OperandRead frames e ts)
    (operand : e.IsOperand) (hs : continueFrom limit e frames level t = .ok s') :
    s'.Read (ts ++ [t]) := by
  obtain ⟨lexeme, i⟩ := t
  cases lexeme with
  | operator op => exact read_of_operator h operand hs
  | comma => exact read_of_comma h hs
  | parenRight => exact read_of_parenRight h hs
  | _ => cases hs

/-- The first token inside a call either ends it or begins an argument. -/
theorem read_of_argument {name : String} {outer : Nat}
    (h : FramesRead (.call name [] outer :: frames) ts)
    (hs : step limit { expecting := .argument, frames := .call name [] outer :: frames, level } t =
      .ok s') : s'.Read (ts ++ [t]) := by
  obtain ⟨lexeme, i⟩ := t
  cases lexeme with
  | parenRight =>
      obtain rfl := Except.ok.inj hs
      cases h with
      | call j k hname hframes harguments =>
          obtain rfl := harguments.eq_nil
          have hcall := OperandRead.of_isOperand hframes (.call j k i hname .nil)
            (.call (by simp) (by simp)) trivial
          refine .continuation trivial ?_
          simpa only [List.append_assoc, List.cons_append, List.nil_append] using hcall
  | _ => exact read_of_beginOperand limit level h hs

/-- Digits after a minus sign have to touch it. -/
theorem read_of_digits {minus : Token} (hminus : minus.lexeme = .operator .sub)
    (h : FramesRead frames ts)
    (hs : step limit { expecting := .digits minus, frames, level } t = .ok s') :
    s'.Read (ts ++ [minus] ++ [t]) := by
  obtain ⟨lexeme, i⟩ := t
  cases lexeme with
  | number text =>
      by_cases touch : i = minus.stop
      · change (if i = minus.stop then _ else _) = _ at hs
        rw [if_pos touch] at hs
        obtain rfl := Except.ok.inj hs
        have hsign : minus.text = "-" := by rw [Token.text, hminus]; rfl
        rw [List.append_assoc, hsign]
        exact .continuation trivial
          (.of_isOperand h (.signed minus _ hminus rfl touch) .number trivial)
      · change (if i = minus.stop then _ else _) = _ at hs
        rw [if_neg touch] at hs
        cases hs
  | _ => cases hs

/-- The token after a name shows whether it was a function, a relationship or an attribute. -/
theorem read_of_afterName {name : String} {i : Nat}
    (hname : Text.sameIgnoringCase name "null" = false) (h : FramesRead frames ts)
    (hs : step limit { expecting := .afterName name, frames, level } t = .ok s') :
    s'.Read (ts ++ [⟨.name name, i⟩] ++ [t]) := by
  have hattr := OperandRead.of_isOperand h (.attr i hname) .attr trivial
  obtain ⟨lexeme, j⟩ := t
  cases lexeme with
  | parenLeft =>
      obtain rfl := eq_of_within ((step_parenLeft_afterName limit j name).symm.trans hs)
      rw [List.append_assoc]
      exact .argument (.call i j hname h .nil)
  | dot =>
      obtain rfl := Except.ok.inj hs
      rw [List.append_assoc]
      exact .column i j hname h
  | _ => exact read_of_continueFrom limit level hattr trivial hs

theorem read_of_column {name : String} {i j : Nat}
    (hname : Text.sameIgnoringCase name "null" = false) (h : FramesRead frames ts)
    (hs : step limit { expecting := .column name, frames, level } t = .ok s') :
    s'.Read (ts ++ [⟨.name name, i⟩, ⟨.dot, j⟩] ++ [t]) := by
  obtain ⟨lexeme, k⟩ := t
  rw [List.append_assoc]
  cases lexeme with
  | name word =>
      by_cases hword : Text.sameIgnoringCase word "count" = true
      · obtain rfl := Except.ok.inj ((step_count hword limit k name).symm.trans hs)
        exact .continuation trivial (.of_isOperand h (.count i j k hname hword) .count trivial)
      · have hcolumn := Bool.eq_false_iff.mpr hword
        obtain rfl := Except.ok.inj ((step_column hcolumn limit k name).symm.trans hs)
        exact .continuation trivial
          (.of_isOperand h (.related i j k hname hcolumn) .related trivial)
  | _ => cases hs

/-- Taking a token adds it to what was read. -/
theorem Read.step (h : s.Read ts) (hs : step limit s t = .ok s') : s'.Read (ts ++ [t]) := by
  cases h with
  | operand h => exact read_of_beginOperand limit _ h hs
  | argument h => exact read_of_argument h hs
  | digits minus hminus h => exact read_of_digits hminus h hs
  | afterName i hname h => exact read_of_afterName hname h hs
  | column i j hname h => exact read_of_column hname h hs
  | continuation operand h => exact read_of_continueFrom limit _ h operand hs

/-- The account is kept along a whole run. -/
theorem Read.run {us : List Token} (h : s.Read ts) (hs : run limit s us = .ok s') :
    s'.Read (ts ++ us) := by
  induction us generalizing s ts with
  | nil =>
      obtain rfl := Except.ok.inj hs
      rwa [List.append_nil]
  | cons t us ih =>
      rw [run_cons] at hs
      cases hstep : ParseState.step limit s t with
      | error => rw [hstep] at hs; cases hs
      | ok next =>
          rw [hstep] at hs
          have htail := ih (h.step hstep) hs
          rwa [List.append_assoc] at htail

theorem yields_of_complete {root : Expr} {position : Nat} (h : OperandRead frames e ts)
    (hs : complete e frames level position = .ok root) : root.Yields ts ∧ root.Canonical := by
  obtain ⟨whole, inner, rest, hclose, hread, _, _⟩ := h.close e.bindsAtLeast_zero level
  simp only [complete] at hs
  rw [hclose] at hs
  obtain ⟨us, vs, rfl, hframes, hwhole⟩ := hread.parts
  cases hframes with
  | nil =>
      obtain rfl := Except.ok.inj hs
      exact ⟨hwhole, hread.canonical⟩
  | _ => cases hs

/-- A tree is finished when no frame is open, so all that was read belongs to it. -/
theorem Read.finish {root : Expr} {position : Nat} (h : s.Read ts)
    (hs : s.finish position = .ok root) : root.Yields ts ∧ root.Canonical := by
  cases h with
  | afterName i hname h =>
      exact yields_of_complete (OperandRead.of_isOperand h (.attr i hname) .attr trivial) hs
  | continuation _ h => exact yields_of_complete h hs
  | _ => cases hs

end ParseState

end QueryExpr
