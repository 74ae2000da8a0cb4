import LinearCalculus.Checker.Program
import LinearCalculus.Proofs.Arrow.Invertibility
import LinearCalculus.Proofs.Arrow.Size
import LinearCalculus.Proofs.Codec.Restoration

namespace LinearCalculus

theorem Arrow.steps_pos (f : Arrow) : 1 ≤ f.steps.length :=
  List.length_pos_iff.mpr f.steps_ne_nil

theorem Arrow.length_steps_compress_le (f : Arrow) :
    f.compress.steps.length ≤ f.steps.length := by
  rw [steps_compress, List.length_reverse]
  exact length_stack_le f

namespace Checker

/-- The report and the printed lines are about the arrow. -/
structure Faithful (o : Options) (f : Arrow) (r : Report) (printed : List String) : Prop where
  steps : r.steps = f.steps.length ∧ 1 ≤ r.steps
  compressed : (∃ c, r.compressed = some c) ↔ o.omits .compress = false
  compressed_le : ∀ c, r.compressed = some c →
    c = f.compress.steps.length ∧ 1 ≤ c ∧ c ≤ r.steps
  reversed : (∃ g, r.reversed = some g) ↔ o.reverse ∧ f.isInvertible
  inverse : ∀ g, r.reversed = some g → f.reverse = .ok g
  /-- The endpoints are printed, and behind them those of the inverse, which are the same two
  formulas exchanged. -/
  lines : printed = (if o.echo then [f.text] else []) ++
    (f.source.text ++ " → " ++ f.target.text) ::
      (if r.reversed.isSome then [f.target.text ++ " → " ++ f.source.text] else [])

theorem reversed?_eq_some {o : Options} {f g : Arrow} :
    reversed? o f = some g ↔ o.reverse ∧ f.reverse = .ok g := by
  unfold reversed?
  cases o.reverse with
  | false => simp
  | true => simp [toOption_eq_some]

theorem exists_reversed?_iff {o : Options} {f : Arrow} :
    (∃ g, reversed? o f = some g) ↔ o.reverse ∧ f.isInvertible := by
  simp only [reversed?_eq_some, ← Arrow.exists_reverse_iff]
  constructor
  · intro known
    rcases known with ⟨g, asked, reversed⟩
    exact ⟨asked, g, reversed⟩
  · intro known
    rcases known with ⟨asked, g, reversed⟩
    exact ⟨g, asked, reversed⟩

theorem endpointsText_of_reverse {f g : Arrow} (reversed : f.reverse = .ok g) :
    g.endpointsText = f.target.text ++ " → " ++ f.source.text := by
  have ends := (Arrow.inverse_of_reverse f g reversed).ends
  rw [Arrow.endpointsText, ends.1, ends.2]

theorem lines_eq (o : Options) (f : Arrow) :
    lines o f = (if o.echo then [f.text] else []) ++
      f.endpointsText ::
        (if (reversed? o f).isSome then [f.target.text ++ " → " ++ f.source.text] else []) := by
  unfold lines
  cases known : reversed? o f with
  | none => simp
  | some g => simp [endpointsText_of_reverse (reversed?_eq_some.mp known).2]

theorem report_faithful (o : Options) (f : Arrow) : Faithful o f (report o f) (lines o f) := by
  constructor
  · exact ⟨rfl, f.steps_pos⟩
  · unfold report
    cases o.omits .compress <;> simp
  · intro c known
    unfold report at known
    cases kept : o.omits .compress with
    | true => simp [kept] at known
    | false =>
        simp only [kept, Bool.false_eq_true, if_false, Option.some.injEq] at known
        subst known
        exact ⟨rfl, f.compress.steps_pos, f.length_steps_compress_le⟩
  · exact exists_reversed?_iff
  · intro g known
    exact (reversed?_eq_some.mp known).2
  · exact lines_eq o f

section

variable (o : Options) (text : String) (s : Supply)

theorem run_check_unread (omitted : o.omits .parse) :
    (check o text).run s = (.ok (none, []), s) := by
  unfold check
  rw [if_pos omitted]
  rfl

variable {text s} (kept : o.omits .parse = false)
include kept

theorem run_check_undecoded {e : DecodeError} {t : Supply}
    (failed : (Decoder.arrowText text).run s = (.error e, t)) :
    (check o text).run s = (.error (.decode e), t) := by
  unfold check
  rw [kept]
  apply run_bind_of_error
  rw [run_adapt, failed]
  rfl

theorem run_check_decoded {f : Arrow} {t : Supply}
    (decoded : (Decoder.arrowText text).run s = (.ok f, t)) :
    (check o text).run s =
      if o.omits .check then (.ok (none, []), t)
      else match f.fault? with
        | some e => (.error (.shape e), t)
        | none => (.ok (some (report o f), lines o f), t) := by
  have adapted : ((Decoder.arrowText text).adapt CheckError.decode).run s = (.ok f, t) := by
    rw [run_adapt, decoded]
    rfl
  unfold check
  rw [kept]
  refine (run_bind_of_ok adapted).trans ?_
  cases o.omits .check with
  | true => rfl
  | false =>
      cases fault : f.fault? with
      | some e =>
          simp only [Arrow.checked, fault]
          rfl
      | none =>
          simp only [Arrow.checked, fault]
          rfl

end

theorem checkAll_of_failure {o : Options} {text name : String} {inputs : Inputs} {s t : Supply}
    {e : CheckError} (failed : (check o text).run s = (.error e, t))
    (content : (inputs.read name).1.bind String.fromUTF8? = some text) (names : List String) :
    checkAll o (name :: names) inputs s = (.failure, []) := by
  simp only [checkAll, content, failed]

/-- The checker does what its options ask, stage by stage. Without decoding, the text does not
matter. A text that holds no arrow fails, and so does one with an ill-typed arrow inside the one that
it holds, also if checking is left out. If the arrow itself is checked, it fails or the report is
about it. Nothing is printed about a text that fails. -/
theorem check_faithful (o : Options) (text : String) (s : Supply) :
    (o.omits .parse → (check o text).run s = (.ok (none, []), s)) ∧
      (o.omits .parse = false →
        (∀ e t, (Decoder.arrowText text).run s = (.error e, t) →
            (check o text).run s = (.error (.decode e), t)) ∧
          ∀ f t, (Decoder.arrowText text).run s = (.ok f, t) →
            (∀ g ∈ f.parts, g.WellTyped) ∧
              (o.omits .check → (check o text).run s = (.ok (none, []), t)) ∧
              (o.omits .check = false →
                (∀ e, f.fault? = some e → (check o text).run s = (.error (.shape e), t)) ∧
                  (f.fault? = none → ∃ r printed,
                    (check o text).run s = (.ok (some r, printed), t) ∧
                      Faithful o f r printed))) ∧
      ∀ e t, (check o text).run s = (.error e, t) → ∀ name names inputs,
        (inputs.read name).1.bind String.fromUTF8? = some text →
          checkAll o (name :: names) inputs s = (.failure, []) := by
  refine ⟨run_check_unread o text s, ?_, ?_⟩
  · intro kept
    refine ⟨fun e t => run_check_undecoded o kept, ?_⟩
    intro f t decoded
    have outcome := run_check_decoded o kept decoded
    refine ⟨Decoder.gives_arrowText text s f t decoded, ?_, ?_⟩
    · intro omitted
      rw [outcome, if_pos omitted]
    · intro checked
      rw [checked] at outcome
      constructor
      · intro e fault
        rw [outcome, fault]
        rfl
      · intro clear
        rw [clear] at outcome
        exact ⟨report o f, lines o f, outcome, report_faithful o f⟩
  · intro e t failed name names inputs content
    exact checkAll_of_failure failed content names

/-- Three exchanges are compressed to one, and the inverse has the same endpoints the other way
round; two exchanges in the same direction do not fit together. -/
theorem check_faithful_about_exchanges :
    let a : Formula := .holds ⟨0⟩ ⟨1⟩
    let b : Formula := .holds ⟨1⟩ ⟨0⟩
    let swap := Arrow.prim (.commute .and a b)
    let back := Arrow.prim (.commute .and b a)
    let f := Arrow.composite swap (.composite back swap)
    let g := Arrow.composite swap swap
    let o : Options := { reverse := true }
    let s : Supply := ⟨2⟩
    let inputs : Inputs := ⟨fun _ => some g.toJson.toText.toUTF8, g.toJson.toText.toUTF8⟩
    (check { omitFrom := some .parse } "").run s = (.ok (none, []), s) ∧
      (check o "").run s = (.error (.decode .malformed), s) ∧
      (check { omitFrom := some .check } g.toJson.toText).run s = (.ok (none, []), s) ∧
      (∃ e, (check o g.toJson.toText).run s = (.error (.shape e), s)) ∧
      (∀ name, checkAll o [name] inputs s = (.failure, [])) ∧
      ∃ r printed, (check o f.toJson.toText).run s = (.ok (some r, printed), s) ∧
        Faithful o f r printed ∧ r.compressed = some 1 := by
  have valid (text : String) : String.fromUTF8? text.toUTF8 = some text := dif_pos text.isValidUTF8
  have everywhere (content : ByteArray) (name : String) :
      (Inputs.read ⟨fun _ => some content, content⟩ name).1 = some content := by
    unfold Inputs.read
    split <;> rfl
  intro a b swap back f g o s inputs
  have bounded : s.next ≤ Supply.capacity := by decide
  have read : (Decoder.arrowText f.toJson.toText).run s = (.ok f, s) :=
    Decoder.reads_arrowText bounded f (by decide) (by simp [f, swap, back, a, b, s])
      (by decide +kernel)
  have read' : (Decoder.arrowText g.toJson.toText).run s = (.ok g, s) :=
    Decoder.reads_arrowText bounded g (by decide) (by simp [g, swap, a, b, s])
      (by decide +kernel)
  have unfit : g.fault? = some (.uncomposable (.conj .and b a) (.conj .and a b)) := by decide
  have failed := (((check_faithful o _ s).2.1 rfl).2 g s read').2.2 rfl
  rcases (((check_faithful o _ s).2.1 rfl).2 f s read).2.2 rfl with ⟨_, succeeds⟩
  rcases succeeds (by decide) with ⟨r, printed, result, faithful⟩
  rcases faithful.compressed.mpr rfl with ⟨c, compressed⟩
  have one : c = 1 := (faithful.compressed_le c compressed).1.trans (by decide)
  refine ⟨(check_faithful _ _ s).1 rfl, ((check_faithful o "" s).2.1 rfl).1 _ s rfl,
    (((check_faithful _ _ s).2.1 rfl).2 g s read').2.1 rfl, ⟨_, failed.1 _ unfit⟩, ?_,
    r, printed, result, faithful, one ▸ compressed⟩
  intro name
  refine (check_faithful o _ s).2.2 _ s (failed.1 _ unfit) name [] inputs ?_
  rw [everywhere, Option.bind_some, valid]

end Checker

end LinearCalculus
