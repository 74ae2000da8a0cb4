import LinearCalculus.Proofs.TwoHole.Transport

/-! Copies of an exponential in the other hole.

At the core, the copy is a renaming of the exponential that nine steps bring to the right hole,
with the original put back where it was; this works exactly where the exponential could be moved.
Below the outermost contravariant context, an arrow that goes the other way only forgets what is
in the right hole, and the core does not matter. Either way the endpoints are the same. -/

namespace LinearCalculus

open Formula (and alphaEq_refl alphaEq_symm)
open Arrow

namespace TwoHole

/-- What a copy of `b` asks of the formula with two holes: that `b` could be moved at the core, or
that a contravariant context comes first and the right hole counts forwards inside of it. -/
def Duplicates (b : Formula) : TwoHole → Prop
  | conj k l r => Core.Moves ⟨k, l, r⟩ b .rightward
  | comp inner outer =>
    (outer.variance = .covariant → inner.Duplicates b) ∧
      (outer.variance = .contravariant → inner.rightVariance = .covariant)

section

variable {l r : Context} {b₀ x y : Formula} {s : Supply}

theorem gives_pull_copy (side : (Formula.always b₀).Below s) :
    Gives (duplicateRight l r b₀ x y) s (fun _ _ =>
      l.ImportDefined (.always b₀) ∧ r.PushDefined false (.always b₀)) := by
  refine gives_bind (gives_state (P := fun b₀' _ => b₀.alphaEq b₀') (b₀.alphaEq_rename s side)) ?_
  intro b₀' t same
  refine gives_bind (l.gives_importDefined (.always b₀) x t) ?_
  intro pulled u pulls
  refine gives_after fun restored v => ?_
  refine gives_bind_except
    ((Context.pushDefined_exportDefined (.always b₀')).1 false r y) ?_
  intro pushed pushes
  have original : r.PushDefined false (.always b₀) := pushes.congr (by simp [alphaEq_symm same])
  exact gives_except fun _ _ => ⟨pulls, original⟩

theorem yields_duplicateRight (pulls : l.ImportDefined (.always b₀))
    (pushes : r.PushDefined false (.always b₀)) (around : l.Below s)
    (side : (Formula.always b₀).Below s) (content : x.Below s) :
    Yields (duplicateRight l r b₀ x y) s (fun f _ =>
      f.Leads (and (l.fill (and (.always b₀) x)) (r.fill y))
        (and (l.fill (and (.always b₀) x)) (r.fill (and (.always b₀) y)))) := by
  apply yields_bind (yields_state (P := fun b₀' t => b₀.alphaEq b₀' ∧ s.next ≤ t.next)
    ⟨b₀.alphaEq_rename s side, b₀.rename_later s side⟩)
  intro b₀' t drawn
  rcases drawn with ⟨same, later⟩
  have copied : (Formula.always b₀).alphaEq (.always b₀') := by simp [same]
  apply yields_bind (pulls x t (around.mono later) (side.mono later) (content.mono later))
  intro pulled u out
  apply yields_bind ((pulls.pushDefined around side).yields x u)
  intro restored v back
  apply yields_bind ((pushes.congr copied).yields y v)
  intro pushed w into
  -- the last step also gives the copy the names of the original
  have renamed : (r.fill (and (.always b₀') y)).alphaEq (r.fill (and (.always b₀) y)) :=
    r.alphaEq_fill (by simp [alphaEq_symm same])
  exact yields_except (Linked.joinAll (out.1.onLeft .and (r.fill y))
    (.cons (.of_eq rfl rfl) (.cons (.of_eq rfl rfl)
      (.cons ((back.onRight .and (.always b₀')).onLeft .and (r.fill y))
        (.cons (.of_eq rfl rfl) (.cons (.of_eq rfl rfl) (.cons (.of_eq rfl rfl)
          (.cons (into.onLeft .and (l.fill (and (.always b₀) x)))
            (.cons ⟨alphaEq_refl _, by simp [Arrow.target, Primitive.target, renamed]⟩
              (.nil _))))))))))

end

theorem forget_leads (b y : Formula) :
    ∃ f, (Arrow.prim (.commute .and b y)).joinAll [.prim (.forget y b)] = .ok f ∧
      f.Leads (and b y) y :=
  Linked.joinAll (.of_eq rfl rfl) (.cons (.of_eq rfl rfl) (.nil _))

theorem gives_duplicates (h : TwoHole) (b x y : Formula) (s : Supply) (side : b.Below s) :
    Gives (h.transportDuplicating b x y) s (fun _ _ =>
      (∃ b₀, b = .always b₀) ∧ h.Duplicates b) := by
  cases b with
  | always b₀ =>
      refine gives_mono (P := fun _ _ => h.Duplicates (.always b₀)) ?_
        fun _ _ asked => ⟨⟨b₀, rfl⟩, asked⟩
      induction h generalizing s with
      | conj k l r =>
          cases k with
          | or => exact gives_throw _ _ _
          | and =>
              refine gives_bind_except (fun _ done => expectCovariant_eq_ok.mp done) ?_
              intro _ covariant
              exact gives_mono (gives_pull_copy side) fun _ _ both =>
                ⟨rfl, covariant.1, covariant.2, both.1, both.2⟩
      | comp inner outer ih =>
          rw [transportDuplicating]
          simp only [Formula.always?, Duplicates]
          cases outer.variance with
          | covariant =>
              refine gives_bind (ih s side) ?_
              intro f t asked
              refine gives_pure ⟨fun _ => asked, ?_⟩
              intro odd
              cases odd
          | contravariant =>
              cases inner.rightVariance with
              | covariant =>
                  refine gives_after fun _ _ => gives_pure ⟨?_, fun _ => rfl⟩
                  intro even
                  cases even
              | contravariant => exact gives_throw _ _ _
  | holds _ _ | identical _ _ | unit _ | not _ | conj _ _ _ | quant _ _ _ =>
      rw [transportDuplicating.eq_def]
      exact gives_throw _ _ _

theorem yields_transportDuplicating (h : TwoHole) {b x y : Formula} {s : Supply}
    (around : h.Below s) (side : b.Below s) (first : x.Below s)
    (asked : (∃ b₀, b = .always b₀) ∧ h.Duplicates b) :
    Yields (h.transportDuplicating b x y) s (fun f _ =>
      f.Leads (h.fill (and b x) y) (h.fill (and b x) (and b y))) := by
  rcases asked with ⟨⟨b₀, shape⟩, asked⟩
  subst shape
  induction h with
  | conj k l r =>
      cases k with
      | or => cases asked.connective
      | and =>
          have covariant : expectCovariant l r (.always b₀) = .ok () :=
            expectCovariant_eq_ok.mpr ⟨asked.left, asked.right⟩
          apply yields_bind (yields_except (P := fun _ t => t = s) ⟨(), covariant, rfl⟩)
          intro _ t same
          subst same
          exact yields_duplicateRight asked.pulled asked.pushed around.1 side first
  | comp inner outer ih =>
      rw [transportDuplicating]
      simp only [Formula.always?]
      cases known : outer.variance with
      | covariant =>
          apply yields_bind (ih around.1 (asked.1 known))
          intro f t leads
          exact yields_pure (Context.leads_mapArrow known leads)
      | contravariant =>
          have right := asked.2 known
          simp only [right]
          apply yields_bind (yields_except (P := fun f _ => f.Leads (and (.always b₀) y) y)
            (forget_leads (.always b₀) y))
          intro discard t forgets
          -- inside, the copy is there first and is forgotten
          exact yields_pure (Context.leads_mapArrow_back known
            (leads_mapArrows_right right (and (.always b₀) x) forgets))

/-- Only an exponential is copied, exactly where `Duplicates` allows it, and every copy keeps the
original: seen from outside, the arrow leads from the formula with `b` at the left hole to the one
with `b` at both, whichever of the contexts around the core are contravariant. -/
theorem duplication_keeps_original (h : TwoHole) (b x y : Formula) (s : Supply)
    (around : h.Below s) (side : b.Below s) (first : x.Below s) :
    ((∃ f t, (h.transportDuplicating b x y).run s = (.ok f, t)) ↔
      (∃ b₀, b = .always b₀) ∧ h.Duplicates b) ∧
      ∀ f t, (h.transportDuplicating b x y).run s = (.ok f, t) →
        (∃ b₀, b = .always b₀) ∧ f.source.alphaEq (h.fill (and b x) y) ∧
          f.target.alphaEq (h.fill (and b x) (and b y)) := by
  have domain := domain_of_gives_yields (h.gives_duplicates b x y s side)
    (h.yields_transportDuplicating around side first)
  refine ⟨domain.1, ?_⟩
  intro f t result
  have asked := h.gives_duplicates b x y s side f t result
  have leads := domain.2 f t result
  exact ⟨asked.1, leads.source, leads.target⟩

/-- Out of an exponential and past two negations that are not adjacent; and below a negation,
where not even a disjunction at the core is in the way. -/
theorem duplication_keeps_original_below_negations :
    let o : Formula := .holds ⟨0⟩ ⟨0⟩
    let b : Formula := .always (.quant .all ⟨1⟩ (.holds ⟨1⟩ ⟨0⟩))
    let lone : Context :=
      .comp (.comp (.layer .not) (.layer (.conj .and .left o))) (.layer .not)
    let copied : TwoHole := .comp (.conj .and (.layer .always) lone) (.layer (.conj .or .left o))
    let forgotten : TwoHole :=
      .comp (.comp (.comp (.conj .or lone (.layer .not)) (.layer .not)) (.layer .not))
        (.layer (.quant .ex ⟨0⟩))
    b.Below ⟨2⟩ ∧ o.Below ⟨2⟩ ∧ ∀ h ∈ [copied, forgotten], h.Below ⟨2⟩ ∧
      ∃ f t, (h.transportDuplicating b o o).run ⟨2⟩ = (.ok f, t) ∧
        f.source.alphaEq (h.fill (and b o) o) ∧ f.target.alphaEq (h.fill (and b o) (and b o)) := by
  intro o b lone copied forgotten
  have side : b.Below ⟨2⟩ := by decide
  have content : o.Below ⟨2⟩ := by decide
  have pulled : (Context.layer .always).ImportDefined b :=
    (Context.importDefined_iff (s := ⟨2⟩) (by decide) side).mpr ⟨by decide, rfl⟩
  have pushed : lone.PushDefined false b :=
    (lone.pushDefined_iff b).mpr ⟨rfl, show ∀ l ∈ lone.layers, l.Passes b by decide⟩
  have copies : copied.Duplicates b := ⟨fun _ => ⟨rfl, rfl, rfl, pulled, pushed⟩, fun _ => rfl⟩
  have forgets : forgotten.Duplicates b :=
    ⟨fun _ => ⟨fun even => absurd even (by decide), fun _ => rfl⟩,
      fun odd => absurd odd (by decide)⟩
  have around : ∀ h ∈ [copied, forgotten], h.Below ⟨2⟩ := by decide
  have asked : ∀ h ∈ [copied, forgotten], h.Duplicates b := by simp [copies, forgets]
  refine ⟨side, content, ?_⟩
  intro h listed
  have whole := duplication_keeps_original h b o o ⟨2⟩ (around h listed) side content
  rcases whole.1.mpr ⟨⟨_, rfl⟩, asked h listed⟩ with ⟨f, t, result⟩
  exact ⟨around h listed, f, t, result, (whole.2 f t result).2⟩

end TwoHole

end LinearCalculus
