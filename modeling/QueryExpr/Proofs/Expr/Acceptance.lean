import QueryExpr.Expr.Parser
import QueryExpr.Proofs.Expr.Nesting

/-!
# Reading the yield of a tree

When the tokens of a canonical tree arrive where an operand is expected, they are all taken, and the
state after them is known exactly: the operators on the right edge of the tree are still pending,
and everything else is complete. The only thing that can go wrong on the way is that more levels are
open than the limit allows, which happens if and only if the tree asks for more.

The frames around the tree matter for one thing only: an operator at its root must not be taken by
an operator that waits outside, and it must not be an argument of a call.
-/

namespace QueryExpr

namespace Frame

/-- An operand of these frames may itself be an application of `op`. -/
def Admits (op : Operator) : List Frame → Prop
  | operator _ outer _ :: _ => outer.precedence < op.precedence
  | call .. :: _ => False
  | _ => True

theorem close_of_admits {op : Operator} {frames : List Frame} (h : Admits op frames) (right : Expr)
    (level : Nat) : close op.precedence right level frames = (right, level, frames) := by
  cases frames with
  | nil => rfl
  | cons frame frames =>
      cases frame with
      | operator left outer level => exact close_operator_of_lt h ..
      | paren level => rfl
      | call name arguments level => exact False.elim h

/-- These frames may wait for the whole of `e`. -/
def Accepts (e : Expr) (frames : List Frame) : Prop :=
  ∀ op left right, e = .binary op left right → Admits op frames

theorem accepts_of_isOperand {e : Expr} (h : e.IsOperand) (frames : List Frame) :
    Accepts e frames := by
  rintro op left right rfl
  exact False.elim h

theorem accepts_paren (e : Expr) (outer : Nat) (frames : List Frame) :
    Accepts e (paren outer :: frames) :=
  fun _ _ _ _ => trivial

theorem accepts_nil (e : Expr) : Accepts e [] :=
  fun _ _ _ _ => trivial

/-- What the frames wait for is also welcome as the left operand of an application they admit. -/
theorem accepts_left {op : Operator} {frames : List Frame} {e : Expr} (h : Admits op frames)
    (he : e.BindsAtLeast op.precedence) : Accepts e frames := by
  rintro inner left right rfl
  rw [Expr.bindsAtLeast_binary] at he
  cases frames with
  | nil => trivial
  | cons frame frames =>
      cases frame with
      | operator left outer level => exact Nat.lt_of_lt_of_le h he
      | paren level => trivial
      | call name arguments level => exact False.elim h

theorem accepts_operator_iff {op : Operator} {e left : Expr} {level : Nat} {frames : List Frame} :
    Accepts e (operator left op level :: frames) ↔ e.BindsAtLeast (op.precedence + 1) := by
  constructor
  · intro h
    cases e with
    | binary inner left right => exact h inner left right rfl
    | _ => trivial
  · rintro he inner left right rfl
    exact he

end Frame

/-- The operand that is complete, if one is. A name that stands alone is an attribute. -/
def Expecting.operand? : Expecting → Option Expr
  | .afterName name => some (.attr name)
  | .continuation e => some e
  | _ => none

namespace ParseState

/-- A state if its level is within the limit, and else the error about it. -/
def within (limit level : Nat) (s : ParseState) : Except ParseError ParseState :=
  if level ≤ limit then .ok s else .error (.nestingTooDeep limit)

theorem within_of_le {limit level : Nat} (h : level ≤ limit) (s : ParseState) :
    within limit level s = .ok s := if_pos h

theorem eq_of_within {limit level : Nat} {s s' : ParseState} (h : within limit level s = .ok s') :
    s' = s := by
  by_cases hle : level ≤ limit
  · exact (Except.ok.inj ((within_of_le hle s).symm.trans h)).symm
  · have herror : within limit level s = .error (.nestingTooDeep limit) := if_neg hle
    cases herror.symm.trans h

/-- Going on after a level was reached needs the greater of two levels. -/
theorem within_bind {limit a b c : Nat} {s s' : ParseState}
    {next : ParseState → Except ParseError ParseState}
    (h : a ≤ limit → next s = within limit b s') (hc : c = max a b) :
    (within limit a s >>= next) = within limit c s' := by
  subst hc
  by_cases ha : a ≤ limit
  · rw [within_of_le ha]
    change next s = _
    rw [h ha]
    simp only [within, Nat.max_le, ha, true_and]
  · have hs : within limit a s = .error (.nestingTooDeep limit) := if_neg ha
    rw [hs]
    simp only [within, Nat.max_le, ha, false_and, if_false]
    rfl

theorem deepen_bind (limit level : Nat) (s : Nat → ParseState) :
    (Frame.deepen limit level >>= fun inner => .ok (s inner)) =
      within limit (level + 1) (s (level + 1)) := by
  by_cases h : level < limit
  · simp only [Frame.deepen, within, h, if_true, Nat.succ_le_iff.mpr h]
    rfl
  · simp only [Frame.deepen, within, h, if_false, Nat.succ_le_iff]
    rfl

/-- The state after the last token of a tree that was read in these frames. -/
def after (frames : List Frame) (level : Nat) : Expr → ParseState
  | .binary op left right =>
    after (.operator left op (level + left.chain + 1) :: frames) (level + left.chain + 1) right
  | .attr name => { expecting := .afterName name, frames, level }
  | e => { expecting := .continuation e, frames, level }

/-- Closing what is pending after a tree gives back the tree, if all of it binds tightly enough. The
levels of its chain stay open. -/
theorem exists_operand_after (frames : List Frame) (level : Nat) (e : Expr) :
    ∃ last, (after frames level e).expecting.operand? = some last ∧
      ∀ precedence, e.Canonical → e.BindsAtLeast precedence →
        Frame.close precedence last (after frames level e).level (after frames level e).frames =
          Frame.close precedence e (level + e.chain) frames := by
  induction e using Expr.induction generalizing frames level with
  | binary op left right _ ihright =>
      obtain ⟨last, hlast, hclose⟩ := ihright
        (.operator left op (level + left.chain + 1) :: frames) (level + left.chain + 1)
      refine ⟨last, hlast, ?_⟩
      rintro precedence (hcanonical | ⟨hleft, hright, leftBinds, rightBinds⟩) hbinds
      rw [Expr.bindsAtLeast_binary] at hbinds
      change Frame.close precedence last (after _ _ right).level (after _ _ right).frames = _
      rw [hclose precedence hright (rightBinds.mono (by omega))]
      exact Frame.close_operator_of_le hbinds ..
  | _ => exact ⟨_, rfl, fun _ _ _ => rfl⟩

/-- Once an operand is complete, a token that does not belong to a name goes on from there. -/
theorem step_of_operand {s : ParseState} {e : Expr} (h : s.expecting.operand? = some e)
    {t : Token} (hopen : t.lexeme ≠ .parenLeft) (hdot : t.lexeme ≠ .dot) (limit : Nat) :
    step limit s t = continueFrom limit e s.frames s.level t := by
  obtain ⟨expecting, frames, level⟩ := s
  cases expecting with
  | afterName name =>
      obtain rfl := Option.some.inj h
      obtain ⟨lexeme, start⟩ := t
      cases lexeme with
      | parenLeft => exact absurd rfl hopen
      | dot => exact absurd rfl hdot
      | _ => rfl
  | continuation e =>
      obtain rfl := Option.some.inj h
      rfl
  | _ => cases h

theorem finish_of_operand {s : ParseState} {e : Expr} (h : s.expecting.operand? = some e)
    (position : Nat) : s.finish position = complete e s.frames s.level position := by
  obtain ⟨expecting, frames, level⟩ := s
  cases expecting with
  | afterName name =>
      obtain rfl := Option.some.inj h
      rfl
  | continuation e =>
      obtain rfl := Option.some.inj h
      rfl
  | _ => cases h

variable {e : Expr} {frames : List Frame} {level : Nat}

theorem step_parenLeft (limit i : Nat) :
    step limit { expecting := .operand, frames, level } ⟨.parenLeft, i⟩ =
      within limit (level + 1)
        { expecting := .operand, frames := .paren level :: frames, level := level + 1 } :=
  deepen_bind limit level fun inner =>
    { expecting := .operand, frames := .paren level :: frames, level := inner }

theorem step_name {name : String} (h : Text.sameIgnoringCase name "null" = false) (limit i : Nat) :
    step limit { expecting := .operand, frames, level } ⟨.name name, i⟩ =
      .ok { expecting := .afterName name, frames, level } := by
  change (if Text.sameIgnoringCase name "null" = true then _ else _) = _
  rw [h]
  rfl

theorem step_null {word : String} (h : Text.sameIgnoringCase word "null" = true) (limit i : Nat) :
    step limit { expecting := .operand, frames, level } ⟨.name word, i⟩ =
      .ok { expecting := .continuation .null, frames, level } := by
  change (if Text.sameIgnoringCase word "null" = true then _ else _) = _
  rw [h]
  rfl

theorem step_parenLeft_afterName (limit i : Nat) (name : String) :
    step limit { expecting := .afterName name, frames, level } ⟨.parenLeft, i⟩ =
      within limit (level + 1)
        { expecting := .argument, frames := .call name [] level :: frames, level := level + 1 } :=
  deepen_bind limit level fun inner =>
    { expecting := .argument, frames := .call name [] level :: frames, level := inner }

/-- A name and a point: the next token is taken as the word that belongs to the relationship. -/
theorem run_dot {name : String} (h : Text.sameIgnoringCase name "null" = false) (limit i j : Nat)
    (t : Token) :
    run limit { expecting := .operand, frames, level } [⟨.name name, i⟩, ⟨.dot, j⟩, t] =
      step limit { expecting := .column name, frames, level } t := by
  rw [run_cons, step_name h]
  exact bind_pure (step limit { expecting := .column name, frames, level } t)

theorem step_column {word : String} (h : Text.sameIgnoringCase word "count" = false)
    (limit i : Nat) (relationship : String) :
    step limit { expecting := .column relationship, frames, level } ⟨.name word, i⟩ =
      .ok { expecting := .continuation (.related relationship word), frames, level } := by
  change (if Text.sameIgnoringCase word "count" = true then _ else _) = _
  rw [h]
  rfl

theorem step_count {word : String} (h : Text.sameIgnoringCase word "count" = true)
    (limit i : Nat) (relationship : String) :
    step limit { expecting := .column relationship, frames, level } ⟨.name word, i⟩ =
      .ok { expecting := .continuation (.count relationship), frames, level } := by
  change (if Text.sameIgnoringCase word "count" = true then _ else _) = _
  rw [h]
  rfl

/-- A minus sign and the digits that touch it make one number. -/
theorem run_signed {minus number : Token} {text : String} (hminus : minus.lexeme = .operator .sub)
    (hnumber : number.lexeme = .number text) (touch : number.start = minus.stop) (limit : Nat) :
    run limit { expecting := .operand, frames, level } [minus, number] =
      .ok { expecting := .continuation (.number ("-" ++ text)), frames, level } := by
  obtain ⟨_, i⟩ := minus
  obtain ⟨_, j⟩ := number
  cases hminus
  cases hnumber
  cases touch
  exact congrArg (· >>= fun s => run limit s []) (if_pos rfl)

/-- An operator after a tree that it does not regroup takes the whole tree as its left operand. -/
theorem step_operator_after {op : Operator} (he : e.Canonical)
    (hbinds : e.BindsAtLeast op.precedence) (hadmits : Frame.Admits op frames) (limit i : Nat) :
    step limit (after frames level e) ⟨.operator op, i⟩ =
      within limit (level + e.chain + 1)
        { expecting := .operand
          frames := .operator e op (level + e.chain + 1) :: frames
          level := level + e.chain + 1 } := by
  obtain ⟨last, hlast, hclose⟩ := exists_operand_after frames level e
  have hframes := (hclose op.precedence he hbinds).trans (Frame.close_of_admits hadmits _ _)
  rw [step_of_operand hlast (by simp) (by simp)]
  simp only [continueFrom]
  rw [hframes]
  cases frames with
  | nil => exact deepen_bind ..
  | cons frame frames =>
      cases frame with
      | call => exact False.elim hadmits
      | _ => exact deepen_bind ..

/-- A closing parenthesis after a tree completes the innermost open parenthesis. -/
theorem step_parenRight_after_paren (he : e.Canonical) (limit i outer : Nat) :
    step limit (after (.paren outer :: frames) level e) ⟨.parenRight, i⟩ =
      .ok { expecting := .continuation (.paren e), frames, level := outer } := by
  obtain ⟨last, hlast, hclose⟩ := exists_operand_after (.paren outer :: frames) level e
  rw [step_of_operand hlast (by simp) (by simp)]
  simp only [continueFrom]
  rw [hclose 0 he (e.bindsAtLeast_zero), Frame.close_paren]
  rfl

/-- A closing parenthesis after an argument completes the call. -/
theorem step_parenRight_after_call (he : e.Canonical) (limit i outer : Nat) (name : String)
    (arguments : List Expr) :
    step limit (after (.call name arguments outer :: frames) level e) ⟨.parenRight, i⟩ =
      .ok { expecting := .continuation (.call name (arguments ++ [e]))
            frames
            level := outer } := by
  obtain ⟨last, hlast, hclose⟩ :=
    exists_operand_after (.call name arguments outer :: frames) level e
  rw [step_of_operand hlast (by simp) (by simp)]
  simp only [continueFrom]
  rw [hclose 0 he (e.bindsAtLeast_zero), Frame.close_call]
  rfl

/-- A comma after an argument adds it to the call and expects the next one. -/
theorem step_comma_after (he : e.Canonical) (operand : e.IsOperand) (limit i outer : Nat)
    (name : String) (arguments : List Expr) :
    step limit (after (.call name arguments outer :: frames) level e) ⟨.comma, i⟩ =
      .ok { expecting := .operand
            frames := .call name (arguments ++ [e]) outer :: frames
            level } := by
  obtain ⟨last, hlast, hclose⟩ :=
    exists_operand_after (.call name arguments outer :: frames) level e
  rw [step_of_operand hlast (by simp) (by simp)]
  simp only [continueFrom]
  rw [hclose 0 he (e.bindsAtLeast_zero), Frame.close_call, operand.chain_eq]
  rfl

theorem finish_after (he : e.Canonical) (position : Nat) :
    (after [] level e).finish position = .ok e := by
  obtain ⟨last, hlast, hclose⟩ := exists_operand_after [] level e
  rw [finish_of_operand hlast, complete, hclose 0 he (e.bindsAtLeast_zero)]
  rfl

/-- Where frames wait for `e`, its tokens are taken if its levels fit in the limit, and the error is
about the limit if they do not. -/
def Takes (limit : Nat) (e : Expr) : Prop :=
  ∀ ⦃frames : List Frame⦄ ⦃level : Nat⦄ ⦃ts : List Token⦄, e.Yields ts →
    Frame.Accepts e frames → level ≤ limit →
      run limit { expecting := .operand, frames, level } ts =
        within limit (level + e.levels) (after frames level e)

/-- The remaining arguments of a call, up to its closing parenthesis. -/
theorem run_arguments {limit outer k : Nat} {name : String} {es : List Expr} {ts : List Token}
    (hts : Expr.YieldsAll es ts) (nonempty : es ≠ []) (canonical : ∀ e ∈ es, e.Canonical)
    (operands : ∀ e ∈ es, e.IsOperand) (each : ∀ e ∈ es, Takes limit e) (hlevel : level ≤ limit)
    (arguments : List Expr) :
    run limit { expecting := .operand, frames := .call name arguments outer :: frames, level }
        (ts ++ [⟨.parenRight, k⟩]) =
      within limit (level + Expr.maxLevels es)
        { expecting := .continuation (.call name (arguments ++ es)), frames, level := outer } := by
  induction es generalizing arguments ts with
  | nil => exact absurd rfl nonempty
  | cons e es ih =>
      have hcanonical := canonical e (by simp)
      have hoperand := operands e (by simp)
      have haccepts := Frame.accepts_of_isOperand hoperand (.call name arguments outer :: frames)
      cases hts with
      | single he =>
          rw [run_append, each e (by simp) he haccepts hlevel]
          refine within_bind (b := 0) (fun _ => ?_) (by simp [Expr.maxLevels])
          rw [run_cons, step_parenRight_after_call hcanonical, within_of_le (Nat.zero_le _)]
          rfl
      | @cons _ f rest ts us i he hes =>
          rw [List.append_assoc, run_append, each e (by simp) he haccepts hlevel]
          refine within_bind (b := level + Expr.maxLevels (f :: rest)) (fun _ => ?_) (by
            simp only [Expr.maxLevels]
            omega)
          rw [List.cons_append, run_cons, step_comma_after hcanonical hoperand]
          have htail := ih hes (List.cons_ne_nil _ _) (fun e he => canonical e (by simp [he]))
            (fun e he => operands e (by simp [he])) (fun e he => each e (by simp [he]))
            (arguments ++ [e])
          rw [List.append_assoc] at htail
          exact htail

/-- Where a call may end at once, any other token begins its first argument. -/
theorem run_argument {limit : Nat} {t : Token} (h : t.lexeme ≠ .parenRight) (rest : List Token) :
    run limit { expecting := .argument, frames, level } (t :: rest) =
      run limit { expecting := .operand, frames, level } (t :: rest) := by
  obtain ⟨lexeme, start⟩ := t
  rw [run_cons, run_cons]
  cases lexeme with
  | parenRight => exact absurd rfl h
  | _ => rfl

theorem takes_paren {limit : Nat} {inner : Expr} (hcanonical : inner.Canonical)
    (hinner : Takes limit inner) : Takes limit (.paren inner) := by
  intro frames level ts hts _ hlevel
  cases hts with
  | @paren _ us i j hus =>
      rw [List.cons_append, run_cons, step_parenLeft]
      refine within_bind (b := level + 1 + inner.levels) (fun hle => ?_) (by
        simp only [Expr.levels]
        omega)
      rw [run_append, hinner hus (Frame.accepts_paren _ _ _) hle]
      refine within_bind (b := 0) (fun _ => ?_) (Nat.max_zero _).symm
      rw [run_cons, step_parenRight_after_paren hcanonical, within_of_le (Nat.zero_le _)]
      rfl

theorem takes_binary {limit : Nat} {op : Operator} {left right : Expr}
    (hcanonical : Expr.Canonical (.binary op left right)) (hleft : Takes limit left)
    (hright : Takes limit right) : Takes limit (.binary op left right) := by
  intro frames level ts hts haccepts hlevel
  have hadmits := haccepts op left right rfl
  cases hcanonical with
  | binary leftCanonical rightCanonical leftBinds rightBinds =>
      cases hts with
      | @binary _ _ _ ls rs i hls hrs =>
          rw [run_append, hleft hls (Frame.accepts_left hadmits leftBinds) hlevel]
          refine within_bind (b := level + left.chain + 1 + right.levels) (fun _ => ?_) (by
            simp only [Expr.levels]
            omega)
          rw [run_cons, step_operator_after leftCanonical leftBinds hadmits]
          exact within_bind (hright hrs (Frame.accepts_operator_iff.mpr rightBinds)) (by omega)

theorem takes_call {limit : Nat} {name : String} {arguments : List Expr}
    (hcanonical : Expr.Canonical (.call name arguments))
    (each : ∀ e ∈ arguments, Takes limit e) : Takes limit (.call name arguments) := by
  intro frames level ts hts _ hlevel
  cases hcanonical with
  | call canonical operands =>
      cases hts with
      | @call _ _ us i j k hname hus =>
          rw [List.cons_append, List.cons_append, run_cons, step_name hname]
          change run limit _ _ = _
          rw [run_cons, step_parenLeft_afterName]
          cases arguments with
          | nil =>
              cases hus
              refine within_bind (b := 0) (fun _ => ?_) (by simp [Expr.levels, Expr.maxLevels])
              rw [within_of_le (Nat.zero_le _)]
              rfl
          | cons e es =>
              obtain ⟨t, rest, rfl, ht⟩ := hus.exists_cons
              refine within_bind (b := level + 1 + Expr.maxLevels (e :: es)) (fun hle => ?_) (by
                simp only [Expr.levels]
                omega)
              rw [List.cons_append, run_argument ht, ← List.cons_append]
              exact run_arguments hus (List.cons_ne_nil _ _) canonical operands each hle []

/-- The yield of a canonical tree is read whatever surrounds it, as far as the limit goes. -/
theorem takes_of_canonical (limit : Nat) (he : e.Canonical) : Takes limit e := by
  induction e using Expr.induction with
  | paren inner ih =>
      obtain ⟨hinner⟩ := he
      exact takes_paren hinner (ih hinner)
  | binary op left right ihleft ihright =>
      have hcanonical := he
      cases he with
      | binary hleft hright _ _ => exact takes_binary hcanonical (ihleft hleft) (ihright hright)
  | call name arguments ih =>
      have hcanonical := he
      cases he with
      | call canonical _ => exact takes_call hcanonical fun e he => ih e he (canonical e he)
  | null =>
      intro frames level ts hts _ hlevel
      cases hts with
      | null i hword =>
          rw [run_cons, step_null hword]
          exact (within_of_le hlevel _).symm
  | attr name =>
      intro frames level ts hts _ hlevel
      cases hts with
      | attr i hname =>
          rw [run_cons, step_name hname]
          exact (within_of_le hlevel _).symm
  | related relationship column =>
      intro frames level ts hts _ hlevel
      cases hts with
      | related i j k hname hcolumn =>
          rw [run_dot hname, step_column hcolumn]
          exact (within_of_le hlevel _).symm
  | count relationship =>
      intro frames level ts hts _ hlevel
      cases hts with
      | count i j k hname hword =>
          rw [run_dot hname, step_count hword]
          exact (within_of_le hlevel _).symm
  | string raw =>
      intro frames level ts hts _ hlevel
      cases hts
      exact (within_of_le hlevel _).symm
  | number text =>
      intro frames level ts hts _ hlevel
      cases hts with
      | number i => exact (within_of_le hlevel _).symm
      | signed minus number hminus hnumber touch =>
          rw [run_signed hminus hnumber touch]
          exact (within_of_le hlevel _).symm

end ParseState

end QueryExpr
