import LinearCalculus.Context.Transformation
import LinearCalculus.Proofs.Arrow.Laws
import LinearCalculus.Proofs.Formula.Renaming
import LinearCalculus.TwoHole

/-! Arrows that move formulas across the holes of contexts are well-typed.

They are composed with a check at every step, so whatever comes out has no fault. Only
one rule enters them unchecked, the copy of a duplicated formula, and its two formulas
are equal up to bound names because the second is a renaming of the first. -/

namespace LinearCalculus

open Formula (and)

namespace Arrow

theorem wellTyped_of_joinAll {f h : Arrow} {rest : List Arrow} (result : f.joinAll rest = .ok h)
    (typed : ∀ g ∈ f :: rest, g.WellTyped) : h.WellTyped :=
  wellTyped_of_chain (mapError_eq_ok.mp result) typed

theorem joinAll_eq_foldl {f h : Arrow} {rest : List Arrow} (result : f.joinAll rest = .ok h) :
    h = rest.foldl composite f := by
  have chained : f.chain rest = .ok h := mapError_eq_ok.mp result
  clear result
  induction rest generalizing f with
  | nil =>
      cases chained
      rfl
  | cons g rest ih =>
      obtain ⟨fg, composed, chained⟩ := bind_eq_ok.mp chained
      rw [(compose_eq_ok_iff.mp composed).2] at chained
      exact ih chained

end Arrow

open Arrow

namespace Layer

theorem importAlways_wellTyped (b x b' x' : Formula) (f : Arrow)
    (result : importAlways b x b' x' = .ok f) : f.WellTyped := by
  obtain ⟨copied, copy, result⟩ := bind_eq_ok.mp result
  obtain ⟨keepSide, side, result⟩ := bind_eq_ok.mp result
  obtain ⟨keepContent, content, result⟩ := bind_eq_ok.mp result
  have copyTyped := prim_wellTyped_of_checked (mapError_eq_ok.mp copy)
  have sideTyped := wellTyped_of_joinAll side (by simp [WellTyped, Primitive.fault?])
  have contentTyped := wellTyped_of_joinAll content (by simp [WellTyped, Primitive.fault?])
  exact wellTyped_of_joinAll result (by simp [WellTyped, copyTyped, sideTyped, contentTyped])

theorem exchange_wellTyped (l b x : Formula) (f : Arrow) (result : exchange l b x = .ok f) :
    f.WellTyped :=
  wellTyped_of_joinAll result (by simp [WellTyped, Primitive.fault?])

theorem pushAt_wellTyped (invertible : Bool) (l : Layer) (b x : Formula) (f : Arrow)
    (result : l.pushAt invertible b x = .ok f) : f.WellTyped := by
  revert result
  fun_cases Layer.pushAt invertible l b x <;> intro result
  · exact wellTyped_of_joinAll result (by simp [WellTyped, Primitive.fault?])
  · cases result
  · obtain ⟨_, _, result⟩ := bind_eq_ok.mp result
    exact prim_wellTyped_of_checked (mapError_eq_ok.mp result)
  · cases result
    rfl
  · exact exchange_wellTyped _ _ _ f result
  all_goals cases result

theorem exportAt_wellTyped (l : Layer) (b x : Formula) (f : Arrow)
    (result : l.exportAt b x = .ok f) : f.WellTyped := by
  cases l with
  | not => exact wellTyped_of_joinAll result (by simp [WellTyped, Primitive.fault?])
  | always | quant q v | conj k hole other => cases result

theorem gives_importAt (l : Layer) (b x : Formula) (s : Supply) :
    Gives (l.importAt b x) s (fun f _ => f.WellTyped) := by
  fun_cases Layer.importAt l b x
  · refine gives_after (fun b' t => gives_after (fun x' u => gives_except ?_))
    exact importAlways_wellTyped b x b' x'
  · exact gives_throw _ _ _
  · refine gives_after (fun _ t => gives_except ?_)
    intro f result
    exact prim_wellTyped_of_checked (mapError_eq_ok.mp result)
  · exact gives_pure rfl
  · exact gives_except (exchange_wellTyped _ _ _)
  all_goals exact gives_throw _ _ _

end Layer

namespace Context

theorem mapArrow_wellTyped (c : Context) (f : Arrow) : (c.mapArrow f).WellTyped ↔ f.WellTyped := by
  induction c generalizing f with
  | hole => rfl
  | layer l => exact l.mapArrow_wellTyped f
  | comp inner outer first second => exact (second (inner.mapArrow f)).trans (first f)

section

variable {inner outer : Context}

theorem importAt_covariant (within : inner.variance = .covariant)
    (around : outer.variance = .covariant) (b x : Formula) :
    (comp inner outer).importAt b x = (do
      let inside ← inner.importAt b x
      let outside ← outer.importAt b (inner.fill x)
      (outer.mapArrow inside).joinAll [outside] : ExceptT TransportError Fresh Arrow) := by
  rw [importAt]
  simp only [within, around]

theorem importAt_bridged (within : inner.variance = .contravariant)
    (around : outer.variance = .contravariant) {outer' inner' : Context}
    (found : bridge? inner outer = some (outer', inner')) (b x : Formula) :
    (comp inner outer).importAt b x = (do
      let through ← (inner'.compose outer').importAt b x
      (outer'.mapArrow (.prim (.removeDoubleDual (inner'.fill (and b x))))).joinAll
        [through, .onRight .and b (outer'.mapArrow (.prim (.introDoubleDual (inner'.fill x))))] :
      ExceptT TransportError Fresh Arrow) := by
  rw [importAt]
  simp only [within, around]
  split <;> simp_all

theorem pushAt_covariant (within : inner.variance = .covariant)
    (around : outer.variance = .covariant) (invertible : Bool) (b x : Formula) :
    (comp inner outer).pushAt invertible b x = (do
      let outside ← outer.pushAt invertible b (inner.fill x)
      let inside ← inner.pushAt invertible b x
      outside.joinAll [outer.mapArrow inside]) := by
  rw [pushAt]
  simp only [within, around]

theorem pushAt_bridged (within : inner.variance = .contravariant)
    (around : outer.variance = .contravariant) {outer' inner' : Context}
    (found : bridge? inner outer = some (outer', inner')) (invertible : Bool) (b x : Formula) :
    (comp inner outer).pushAt invertible b x = (do
      let through ← (inner'.compose outer').pushAt invertible b x
      (Arrow.onRight .and b
          (outer'.mapArrow (.prim (.removeDoubleDual (inner'.fill x))))).joinAll
        [through, outer'.mapArrow (.prim (.introDoubleDual (inner'.fill (and b x))))]) := by
  rw [pushAt]
  simp only [within, around]
  split <;> simp_all

theorem pushAt_twice (within : inner.variance = .contravariant)
    (around : outer.variance = .contravariant) (missing : bridge? inner outer = none)
    (b x : Formula) :
    (comp inner outer).pushAt false b x = (do
      let inside ← inner.exportAt b x
      let outside ← outer.exportAt b (inner.fill (and b x))
      (Arrow.onRight .and b (outer.mapArrow inside)).joinAll [outside]) := by
  rw [pushAt]
  simp only [within, around]
  split <;> simp_all

theorem exportAt_inner (within : inner.variance = .contravariant)
    (around : outer.variance = .covariant) (b x : Formula) :
    (comp inner outer).exportAt b x = (do
      let outside ← outer.pushAt false b (inner.fill (and b x))
      let inside ← inner.exportAt b x
      outside.joinAll [outer.mapArrow inside]) := by
  rw [exportAt]
  simp only [within, around]

theorem exportAt_outer (within : inner.variance = .covariant)
    (around : outer.variance = .contravariant) (b x : Formula) :
    (comp inner outer).exportAt b x = (do
      let inside ← inner.pushAt false b x
      let outside ← outer.exportAt b (inner.fill x)
      (Arrow.onRight .and b (outer.mapArrow inside)).joinAll [outside]) := by
  rw [exportAt]
  simp only [within, around]

end

theorem gives_importAt (c : Context) (b x : Formula) (s : Supply) :
    Gives (c.importAt b x) s (fun f _ => f.WellTyped) := by
  fun_induction importAt c b x generalizing s with
  | case1 => exact gives_pure trivial
  | case2 x l => exact l.gives_importAt b x s
  | case3 x inner outer covariant covariant' first second =>
      refine gives_bind (first s) ?_
      intro inside t insideTyped
      refine gives_bind (second t) ?_
      intro outside u outsideTyped
      refine gives_except (fun f result => wellTyped_of_joinAll result ?_)
      simp [mapArrow_wellTyped, insideTyped, outsideTyped]
  | case4 x inner outer contravariant contravariant' outer' inner' bridged ih =>
      refine gives_bind (ih s) ?_
      intro through t throughTyped
      refine gives_except (fun f result => wellTyped_of_joinAll result ?_)
      simp [mapArrow_wellTyped, WellTyped, Primitive.fault?, throughTyped]
  | case5 | case6 => exact gives_throw _ _ _

theorem pushAt_exportAt_success (b : Formula) {pushed : Bool → Context → Formula → Arrow → Prop}
    {exported : Context → Formula → Arrow → Prop}
    (atHole : ∀ invertible x, pushed invertible hole x (.identity (and b x)))
    (atLayer : ∀ invertible (l : Layer) x f, l.pushAt invertible b x = .ok f →
      pushed invertible (.layer l) x f)
    (covariant : ∀ invertible inner outer x f g h, inner.variance = .covariant →
      outer.variance = .covariant → pushed invertible outer (inner.fill x) f →
      pushed invertible inner x g → f.joinAll [outer.mapArrow g] = .ok h →
      pushed invertible (comp inner outer) x h)
    (bridged : ∀ invertible inner outer inner' outer' x f h, inner.variance = .contravariant →
      outer.variance = .contravariant → bridge? inner outer = some (outer', inner') →
      pushed invertible (inner'.compose outer') x f →
      (Arrow.onRight .and b
          (outer'.mapArrow (.prim (.removeDoubleDual (inner'.fill x))))).joinAll
        [f, outer'.mapArrow (.prim (.introDoubleDual (inner'.fill (and b x))))] = .ok h →
      pushed invertible (comp inner outer) x h)
    (twice : ∀ inner outer x f g h, inner.variance = .contravariant →
      outer.variance = .contravariant → bridge? inner outer = none → exported inner x f →
      exported outer (inner.fill (and b x)) g →
      (Arrow.onRight .and b (outer.mapArrow f)).joinAll [g] = .ok h →
      pushed false (comp inner outer) x h)
    (exportLayer : ∀ (l : Layer) x f, l.exportAt b x = .ok f → exported (.layer l) x f)
    (exportInner : ∀ inner outer x f g h, inner.variance = .contravariant →
      outer.variance = .covariant → pushed false outer (inner.fill (and b x)) f →
      exported inner x g → f.joinAll [outer.mapArrow g] = .ok h → exported (comp inner outer) x h)
    (exportOuter : ∀ inner outer x f g h, inner.variance = .covariant →
      outer.variance = .contravariant → pushed false inner x f →
      exported outer (inner.fill x) g →
      (Arrow.onRight .and b (outer.mapArrow f)).joinAll [g] = .ok h →
      exported (comp inner outer) x h) :
    (∀ invertible c x f, c.pushAt invertible b x = .ok f → pushed invertible c x f) ∧
      ∀ c x f, c.exportAt b x = .ok f → exported c x f := by
  refine pushAt.mutual_induct b
    (fun invertible c x => ∀ f, c.pushAt invertible b x = .ok f → pushed invertible c x f)
    (fun c x => ∀ f, c.exportAt b x = .ok f → exported c x f)
    ?pushHole ?pushLayer ?pushBoth ?pushBridge ?pushBarred ?pushTwice ?pushMixed
    ?exportHole ?exportLayer ?exportInner ?exportOuter ?exportMixed
  case pushHole =>
      intro invertible x f result
      rw [pushAt] at result
      cases result
      exact atHole invertible x
  case pushLayer =>
      intro invertible x l f result
      rw [pushAt] at result
      exact atLayer invertible l x f result
  case pushBoth =>
      intro invertible x inner outer around within first second h result
      rw [pushAt_covariant within around] at result
      obtain ⟨f, outside, result⟩ := bind_eq_ok.mp result
      obtain ⟨g, inside, result⟩ := bind_eq_ok.mp result
      exact covariant invertible inner outer x f g h within around (first f outside)
        (second g inside) result
  case pushBridge =>
      intro invertible x inner outer around within outer' inner' found ih h result
      rw [pushAt_bridged within around found] at result
      obtain ⟨f, through, result⟩ := bind_eq_ok.mp result
      exact bridged invertible inner outer inner' outer' x f h within around found
        (ih f through) result
  case pushBarred =>
      intro x inner outer around within missing f result
      rw [pushAt] at result
      simp only [within, around] at result
      split at result
      · simp_all
      · cases result
  case pushTwice =>
      intro invertible x inner outer around within missing lax first second h result
      have loose : invertible = false := by simpa using lax
      subst loose
      rw [pushAt_twice within around missing] at result
      obtain ⟨f, inside, result⟩ := bind_eq_ok.mp result
      obtain ⟨g, outside, result⟩ := bind_eq_ok.mp result
      exact twice inner outer x f g h within around missing (first f inside) (second g outside)
        result
  case pushMixed =>
      intro invertible x inner outer notBoth notNeither f result
      rw [pushAt] at result
      split at result
      · exact (notBoth ‹_› ‹_›).elim
      · exact (notNeither ‹_› ‹_›).elim
      · cases result
  case exportHole =>
      intro x f result
      rw [exportAt] at result
      cases result
  case exportLayer =>
      intro x l f result
      rw [exportAt] at result
      exact exportLayer l x f result
  case exportInner =>
      intro x inner outer around within first second h result
      rw [exportAt_inner within around] at result
      obtain ⟨f, outside, result⟩ := bind_eq_ok.mp result
      obtain ⟨g, inside, result⟩ := bind_eq_ok.mp result
      exact exportInner inner outer x f g h within around (first f outside) (second g inside)
        result
  case exportOuter =>
      intro x inner outer around within first second h result
      rw [exportAt_outer within around] at result
      obtain ⟨f, inside, result⟩ := bind_eq_ok.mp result
      obtain ⟨g, outside, result⟩ := bind_eq_ok.mp result
      exact exportOuter inner outer x f g h within around (first f inside) (second g outside)
        result
  case exportMixed =>
      intro x inner outer notInner notOuter f result
      rw [exportAt] at result
      split at result
      · exact (notInner ‹_› ‹_›).elim
      · exact (notOuter ‹_› ‹_›).elim
      · cases result

theorem pushAt_exportAt_wellTyped (b : Formula) :
    (∀ invertible (c : Context) x f, c.pushAt invertible b x = .ok f → f.WellTyped) ∧
      ∀ (c : Context) x f, c.exportAt b x = .ok f → f.WellTyped := by
  apply pushAt_exportAt_success b
  case atHole => exact fun _ _ => trivial
  case atLayer => exact fun invertible l x => l.pushAt_wellTyped invertible b x
  case exportLayer => exact fun l x => l.exportAt_wellTyped b x
  case bridged =>
      intro _ _ _ _ _ _ f h _ _ _ typed joined
      exact wellTyped_of_joinAll joined
        (by simp [mapArrow_wellTyped, WellTyped, Primitive.fault?, typed])
  case covariant =>
      intro _ _ _ _ f g h _ _ typed typed' joined
      exact wellTyped_of_joinAll joined (by simp [mapArrow_wellTyped, typed, typed'])
  case twice =>
      intro _ _ _ f g h _ _ _ typed typed' joined
      exact wellTyped_of_joinAll joined (by simp [mapArrow_wellTyped, WellTyped, typed, typed'])
  case exportInner =>
      intro _ _ _ f g h _ _ typed typed' joined
      exact wellTyped_of_joinAll joined (by simp [mapArrow_wellTyped, typed, typed'])
  case exportOuter =>
      intro _ _ _ f g h _ _ typed typed' joined
      exact wellTyped_of_joinAll joined (by simp [mapArrow_wellTyped, WellTyped, typed, typed'])

theorem pushAt_wellTyped (invertible : Bool) (c : Context) (b x : Formula) (f : Arrow)
    (result : c.pushAt invertible b x = .ok f) : f.WellTyped :=
  (pushAt_exportAt_wellTyped b).1 invertible c x f result

theorem exportAt_wellTyped (c : Context) (b x : Formula) (f : Arrow)
    (result : c.exportAt b x = .ok f) : f.WellTyped :=
  (pushAt_exportAt_wellTyped b).2 c x f result

end Context

theorem Transformation.gives_arrowAt (t : Transformation) (x : Formula) (s : Supply) :
    Gives (t.arrowAt x) s (fun f _ => f.WellTyped) := by
  cases t with
  | importing c b => exact c.gives_importAt b x s
  | lifting c b => exact gives_except (c.pushAt_wellTyped true b x)
  | exporting c b => exact gives_except (c.exportAt_wellTyped b x)
  | extract outer b hole inner =>
      refine gives_bind (outer.gives_importAt b (inner.fill x) s) ?_
      intro pulled u pulledTyped
      cases hole with
      | right => exact gives_pure pulledTyped
      | left =>
          refine gives_except (fun f result => wellTyped_of_joinAll result ?_)
          simp [Context.mapArrow_wellTyped, WellTyped, Primitive.fault?, pulledTyped]
  | insert outer b hole inner =>
      refine gives_bind_except (inner.pushAt_wellTyped false b x) ?_
      intro pushed pushedTyped
      cases hole with
      | right => exact gives_pure ((outer.mapArrow_wellTyped pushed).mpr pushedTyped)
      | left =>
          refine gives_bind_except (fun f result => wellTyped_of_joinAll result ?_) ?_
          · simp [WellTyped, Primitive.fault?, pushedTyped]
          · intro placed placedTyped
            exact gives_pure ((outer.mapArrow_wellTyped placed).mpr placedTyped)

namespace TwoHole

theorem mapArrows_wellTyped (h : TwoHole) (f g : Arrow) (first : f.WellTyped)
    (second : g.WellTyped) : (h.mapArrows f g).WellTyped := by
  induction h with
  | conj k l r => exact ⟨(l.mapArrow_wellTyped f).mpr first, (r.mapArrow_wellTyped g).mpr second⟩
  | comp inner outer ih => exact (outer.mapArrow_wellTyped _).mpr ih

theorem gives_import_push (c d : Context) (b x y : Formula) (s : Supply)
    {join : Arrow → Arrow → Except TransportError Arrow}
    (typed : ∀ f g h, f.WellTyped → g.WellTyped → join f g = .ok h → h.WellTyped) :
    Gives (do
      let pulled ← c.importAt b x
      let pushed ← d.pushAt false b y
      join pulled pushed : ExceptT TransportError Fresh Arrow) s (fun f _ => f.WellTyped) := by
  refine gives_bind (c.gives_importAt b x s) ?_
  intro pulled t pulledTyped
  refine gives_bind_except (d.pushAt_wellTyped false b y) ?_
  intro pushed pushedTyped
  exact gives_except (fun h result => typed pulled pushed h pulledTyped pushedTyped result)

theorem gives_moveRight (l r : Context) (b x y : Formula) (s : Supply) :
    Gives (moveRight l r b x y) s (fun f _ => f.WellTyped) := by
  apply gives_import_push l r b x y s
  intro pulled pushed f pulledTyped pushedTyped result
  exact wellTyped_of_joinAll result
    (by simp [WellTyped, Primitive.fault?, pulledTyped, pushedTyped])

theorem gives_moveLeft (l r : Context) (b x y : Formula) (s : Supply) :
    Gives (moveLeft l r b x y) s (fun f _ => f.WellTyped) := by
  apply gives_import_push r l b y x s
  intro pulled pushed f pulledTyped pushedTyped result
  exact wellTyped_of_joinAll result
    (by simp [WellTyped, Primitive.fault?, pulledTyped, pushedTyped])

theorem gives_transport (h : TwoHole) (b : Formula) (d : Heading) (x y : Formula) (s : Supply) :
    Gives (h.transport b d x y) s (fun f _ => f.WellTyped) := by
  induction h generalizing d s with
  | conj k l r =>
      cases k with
      | or => exact gives_throw _ _ _
      | and =>
          refine gives_after (fun _ t => ?_)
          cases d with
          | rightward => exact gives_moveRight l r b x y t
          | leftward => exact gives_moveLeft l r b x y t
  | comp inner outer ih =>
      refine gives_bind (ih (d.under outer.variance) s) ?_
      intro f t typed
      exact gives_pure ((outer.mapArrow_wellTyped f).mpr typed)

/-- The copy is checked nowhere: that it fits comes from the renaming. -/
theorem gives_duplicateRight (l r : Context) (b₀ x y : Formula) (s : Supply) (below : b₀.Below s) :
    Gives (duplicateRight l r b₀ x y) s (fun f _ => f.WellTyped) := by
  refine gives_bind (gives_state (P := fun b₀' _ => b₀.alphaEq b₀') (b₀.alphaEq_rename s below)) ?_
  intro b₀' t same
  refine gives_bind (l.gives_importAt (.always b₀) x t) ?_
  intro pulled u pulledTyped
  refine gives_bind_except (l.pushAt_wellTyped false (.always b₀) x) ?_
  intro restored restoredTyped
  refine gives_bind_except (r.pushAt_wellTyped false (.always b₀') y) ?_
  intro pushed pushedTyped
  refine gives_except (fun f result => wellTyped_of_joinAll result ?_)
  simp [WellTyped, Primitive.fault?, same, pulledTyped, restoredTyped, pushedTyped]

theorem gives_transportDuplicating (h : TwoHole) (b x y : Formula) (s : Supply)
    (below : b.Below s) : Gives (h.transportDuplicating b x y) s (fun f _ => f.WellTyped) := by
  cases b with
  | always b₀ =>
      induction h generalizing s with
      | conj k l r =>
          cases k with
          | or => exact gives_throw _ _ _
          | and =>
              refine gives_bind_except (P := fun _ => True) (fun _ _ => trivial) ?_
              intro _ _
              exact gives_duplicateRight l r b₀ x y s below
      | comp inner outer ih =>
          rw [transportDuplicating]
          simp only [Formula.always?]
          split
          · refine gives_bind (ih s below) ?_
            intro f t typed
            exact gives_pure ((outer.mapArrow_wellTyped f).mpr typed)
          · refine gives_bind_except (fun f result => wellTyped_of_joinAll result ?_) ?_
            · simp [WellTyped, Primitive.fault?]
            · intro discard discardTyped
              have inside := inner.mapArrows_wellTyped (.identity (and (.always b₀) x)) discard
                trivial discardTyped
              exact gives_pure ((outer.mapArrow_wellTyped _).mpr inside)
          · exact gives_throw _ _ _
  | holds _ _ | identical _ _ | unit _ | not _ | conj _ _ _ | quant _ _ _ =>
      rw [transportDuplicating.eq_def]
      exact gives_throw _ _ _

end TwoHole

end LinearCalculus
