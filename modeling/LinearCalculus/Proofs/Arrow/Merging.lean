import LinearCalculus.Proofs.Arrow.Stack

/-! Merging of settled steps.

A step is settled if compression leaves the outlines of the arrows inside it as they are.
The theorems of this module are about settled steps of a bounded depth. They assume that
compression behaves well on the arrows inside, which are less deep (`Settles`), and show
that merging looks at outlines only, keeps steps settled, and is associative. -/

namespace LinearCalculus.Arrow

def Normal (f : Arrow) : Prop := f.compress.outline = f.outline

/-- Compression of arrows less deep than the bound looks at outlines only, is done after one
time, and may be done to the parts of a composite first. -/
structure Settles (d : Nat) : Prop where
  congr : ∀ f g : Arrow, f.depth < d → f.outline = g.outline →
    f.compress.outline = g.compress.outline
  again : ∀ f : Arrow, f.depth < d → f.compress.Normal
  parts : ∀ f g : Arrow, f.depth < d → g.depth < d →
    (composite f g).compress.outline = (composite f.compress g.compress).compress.outline

structure Content (d : Nat) (F : Frame) (a : Arrow × Arrow) : Prop where
  left : a.1.Normal
  right : a.2.Normal
  shallow : max a.1.depth a.2.depth < d
  single : F.Blank a

inductive Settled (d : Nat) : Arrow → Prop where
  | identity (a : Formula) : Settled d (identity a)
  | prim (p : Primitive) : Settled d (prim p)
  | wrap {F : Frame} {a : Arrow × Arrow} (content : Content d F a) : Settled d (F.wrap a)

theorem settled_shallow (d : Nat) (s : Arrow) (settled : Settled d s) : s.Shallow d := by
  cases settled with
  | identity a => exact ⟨trivial, Nat.zero_le d⟩
  | prim p => exact ⟨trivial, Nat.zero_le d⟩
  | @wrap F a content =>
      have deep := depth_wrap_le F a
      have bound := content.shallow
      exact ⟨wrap_isStep F a, by omega⟩

theorem undoes_congr (p r p' r' : Primitive) (first : p.form = r.form) (second : p'.form = r'.form)
    (undone : Undoes p p') : Undoes r r' := by
  obtain ⟨q, inverse, same⟩ := undone
  obtain ⟨q', inverse', forms⟩ := p.reverse?_form r q first inverse
  refine ⟨q', inverse', (q'.eqv_iff_form r').mpr ?_⟩
  rw [← forms, ← second]
  exact (q.eqv_iff_form p').mp same

theorem undoes_twice (p p' p'' : Primitive) (first : Undoes p p') (second : Undoes p' p'') :
    p.form = p''.form := by
  obtain ⟨r, inverse, same⟩ := first
  obtain ⟨r', inverse', same'⟩ := second
  have forms := (r.eqv_iff_form p').mp same
  have back := p.reverse?_symm r inverse
  obtain ⟨q, inverse'', form⟩ := r.reverse?_form p' p forms back
  rw [inverse'] at inverse''
  cases inverse''
  exact form.trans ((r'.eqv_iff_form p'').mp same')

section

variable {d : Nat} (settles : Settles d)
include settles

theorem outline_compress_parts (f f' g g' : Arrow) (first : max f.depth f'.depth < d)
    (second : max g.depth g'.depth < d) (left : f.compress.outline = f'.compress.outline)
    (right : g.compress.outline = g'.compress.outline) :
    (composite f g).compress.outline = (composite f' g').compress.outline := by
  have within : (composite f.compress g.compress).depth < d := by
    have front := depth_compress_le f
    have back := depth_compress_le g
    rw [depth]
    omega
  rw [settles.parts f g (by omega) (by omega), settles.parts f' g' (by omega) (by omega)]
  apply settles.congr _ _ within
  rw [outline, outline, left, right]

theorem compress_compress_assoc (f g h : Arrow) (first : f.depth < d) (second : g.depth < d)
    (third : h.depth < d) :
    (composite (composite f g).compress h).compress.outline =
      (composite f (composite g h).compress).compress.outline := by
  have front : (composite f g).depth < d := Nat.max_lt.mpr ⟨first, second⟩
  have back : (composite g h).depth < d := Nat.max_lt.mpr ⟨second, third⟩
  have front' := depth_compress_le (composite f g)
  have back' := depth_compress_le (composite g h)
  calc
    (composite (composite f g).compress h).compress.outline
      = (composite (composite f g) h).compress.outline :=
        outline_compress_parts settles _ _ h h (by omega) (by omega) (settles.again _ front) rfl
    _ = (composite f (composite g h)).compress.outline := by rw [compress_assoc]
    _ = (composite f (composite g h).compress).compress.outline :=
        outline_compress_parts settles f f _ _ (by omega) (by omega) rfl (settles.again _ back).symm

theorem follow_congr (F : Frame) (a a' b b' : Arrow × Arrow) (left : max a.1.depth a.2.depth < d)
    (right : max b.1.depth b.2.depth < d) (first : outlines a = outlines a')
    (second : outlines b = outlines b') :
    outlines (F.follow compress a b) = outlines (F.follow compress a' b') := by
  obtain ⟨same, same'⟩ := Prod.mk.inj first
  obtain ⟨equal, equal'⟩ := Prod.mk.inj second
  have place (f f' g g' : Arrow) (deep : f.depth < d) (deep' : g.depth < d)
      (here : f.outline = f'.outline) (there : g.outline = g'.outline) :
      (F.variance.composite f g).compress.outline =
        (F.variance.composite f' g').compress.outline := by
    apply settles.congr
    · rw [depth_composite]
      omega
    · cases F.variance <;> simp [Variance.composite, outline, here, there]
  have places := place a.1 a'.1 b.1 b'.1 (by omega) (by omega) same equal
  have places' := place a.2 a'.2 b.2 b'.2 (by omega) (by omega) same' equal'
  simp only [outlines, Frame.follow, places, places']

theorem content_follow (F : Frame) (a b : Arrow × Arrow) (first : Content d F a)
    (second : Content d F b) : Content d F (F.follow compress a b) := by
  have left := first.shallow
  have right := second.shallow
  have within := depth_follow_le compress depth_compress_le F a b
  refine ⟨settles.again _ ?_, settles.again _ ?_, by omega, ?_⟩
  · rw [depth_composite]
    omega
  · rw [depth_composite]
    omega
  · have single := first.single
    have single' := second.single
    cases F with
    | conj k => trivial
    | not | always | quant q v =>
        have plain := eq_identity_of_isId a.2 single
        have plain' := eq_identity_of_isId b.2 single'
        simp only [Frame.Blank, Frame.follow, Frame.variance, Variance.composite]
        rw [plain, plain']
        rfl

theorem follow_assoc (F : Frame) (a b c : Arrow × Arrow) (first : max a.1.depth a.2.depth < d)
    (second : max b.1.depth b.2.depth < d) (third : max c.1.depth c.2.depth < d) :
    outlines (F.follow compress (F.follow compress a b) c) =
      outlines (F.follow compress a (F.follow compress b c)) := by
  have place (f g h : Arrow) (deep : f.depth < d) (deep' : g.depth < d) (deep'' : h.depth < d) :
      (F.variance.composite (F.variance.composite f g).compress h).compress.outline =
        (F.variance.composite f (F.variance.composite g h).compress).compress.outline := by
    cases F.variance with
    | covariant => exact compress_compress_assoc settles f g h deep deep' deep''
    | contravariant => exact (compress_compress_assoc settles h g f deep'' deep' deep).symm
  have places := place a.1 b.1 c.1 (by omega) (by omega) (by omega)
  have places' := place a.2 b.2 c.2 (by omega) (by omega) (by omega)
  simp only [outlines, Frame.follow] at places places' ⊢
  rw [places, places']

end

theorem outline_follow_identity (v : Variance) (f g : Arrow) (plain : f.isId) (normal : g.Normal) :
    (v.composite f g).compress.outline = g.outline ∧
      (v.composite g f).compress.outline = g.outline := by
  rw [eq_identity_of_isId f plain]
  have first : (composite (identity f.source) g).compress.outline = g.outline := by
    rw [compress_identity_first, normal]
  have last : (composite g (identity f.source)).compress.outline = g.outline := by
    rw [outline_compress_identity_last, normal]
  cases v with
  | covariant => exact ⟨first, last⟩
  | contravariant => exact ⟨last, first⟩

theorem follow_identity (d : Nat) (F : Frame) (a b : Arrow × Arrow) (single : F.Blank a)
    (plain : (F.wrap a).isId) (content : Content d F b) :
    outlines (F.follow compress a b) = outlines b ∧
      outlines (F.follow compress b a) = outlines b := by
  rw [wrap_isId F a single, Bool.and_eq_true] at plain
  have left := outline_follow_identity F.variance a.1 b.1 plain.1 content.left
  have right := outline_follow_identity F.variance a.2 b.2 plain.2 content.right
  exact ⟨Prod.ext left.1 right.1, Prod.ext left.2 right.2⟩

section

variable {d : Nat} (settles : Settles d)
include settles

theorem merge?_congr (s s' t t' h : Arrow) (first : s.Shallow d) (second : t.Shallow d)
    (same : s.outline = s'.outline) (same' : t.outline = t'.outline)
    (merged : merge? compress s t = some h) :
    ∃ h', merge? compress s' t' = some h' ∧ h.outline = h'.outline := by
  cases merged_of_merge? compress first.1 second.1 merged with
  | first a =>
      obtain ⟨a', rfl⟩ := eq_identity_of_outline same.symm
      exact ⟨t', rfl, same'⟩
  | last b proper =>
      obtain ⟨b', rfl⟩ := eq_identity_of_outline same'.symm
      have proper' : s'.isId = false := (isId_congr same).symm.trans proper
      exact ⟨s', merge?_identity_last compress s' b' proper', same⟩
  | @framed _ _ F a b inside inside' =>
      obtain ⟨a', there, left⟩ := inner?_congr same inside
      obtain ⟨b', there', right⟩ := inner?_congr same' inside'
      have deep := first.2
      have deep' := second.2
      rw [depth_of_inner? inside] at deep
      rw [depth_of_inner? inside'] at deep'
      have merged' := Merged.merge?_eq compress (.framed there there')
      refine ⟨_, merged', outline_wrap_congr F ?_⟩
      exact follow_congr settles F a a' b b' deep deep' left right
  | @undone p p' undone =>
      obtain ⟨r, rfl, form⟩ := eq_prim_of_outline same.symm
      obtain ⟨r', rfl, form'⟩ := eq_prim_of_outline same'.symm
      have undone' := undoes_congr p r p' r' form.symm form'.symm undone
      exact ⟨_, merge?_prim compress r r' undone', rfl⟩

theorem merge?_none_congr (s s' t t' : Arrow) (first : s.Shallow d) (second : t.Shallow d)
    (same : s.outline = s'.outline) (same' : t.outline = t'.outline)
    (apart : merge? compress s t = none) : merge? compress s' t' = none := by
  have first' : s'.Shallow d := ⟨isStep_congr same first.1, depth_congr s s' same ▸ first.2⟩
  have second' : t'.Shallow d := ⟨isStep_congr same' second.1, depth_congr t t' same' ▸ second.2⟩
  cases merged : merge? compress s' t' with
  | none => rfl
  | some h =>
      obtain ⟨h', merged', _⟩ :=
        merge?_congr settles s' s t' t h first' second' same.symm same'.symm merged
      rw [apart] at merged'
      cases merged'

theorem merge?_wrap (F : Frame) (a b : Arrow × Arrow) (first : Content d F a)
    (second : Content d F b) :
    ∃ h, merge? compress (F.wrap a) (F.wrap b) = some h ∧
      h.outline = (F.wrap (F.follow compress a b)).outline := by
  cases plain : (F.wrap a).isId with
  | true =>
      have gone := (follow_identity d F a b first.single plain second).1
      rw [eq_identity_of_isId _ plain]
      exact ⟨F.wrap b, rfl, outline_wrap_congr F gone.symm⟩
  | false =>
      cases plain' : (F.wrap b).isId with
      | true =>
          have gone := (follow_identity d F b a second.single plain' first).2
          rw [eq_identity_of_isId _ plain']
          exact ⟨F.wrap a, merge?_identity_last compress _ _ plain, outline_wrap_congr F gone.symm⟩
      | false =>
          obtain ⟨a', inside, _, same⟩ := inner?_wrap F a first.single plain
          obtain ⟨b', inside', _, same'⟩ := inner?_wrap F b second.single plain'
          have merged := Merged.merge?_eq compress (.framed inside inside')
          refine ⟨_, merged, outline_wrap_congr F ?_⟩
          exact (follow_congr settles F a a' b b' first.shallow second.shallow same.symm
            same'.symm).symm

theorem content_of_inner? {s : Arrow} {F : Frame} {a : Arrow × Arrow} (settled : Settled d s)
    (inside : s.inner? = some (F, a)) : Content d F a ∧ F.wrap a = s := by
  cases settled with
  | identity b => cases inside
  | prim p => cases inside
  | @wrap F' b content =>
      have proper := isId_of_inner? inside
      obtain ⟨c, found, back, same⟩ := inner?_wrap F' b content.single proper
      rw [inside] at found
      cases found
      obtain ⟨first, second⟩ := Prod.mk.inj same
      have bound := content.shallow
      rw [← depth_congr a.1 b.1 first, ← depth_congr a.2 b.2 second] at bound
      have left : a.1.Normal :=
        ((settles.congr a.1 b.1 (by omega) first).trans content.left).trans first.symm
      have right : a.2.Normal :=
        ((settles.congr a.2 b.2 (by omega) second).trans content.right).trans second.symm
      exact ⟨⟨left, right, bound, blank_of_inner? inside⟩, back⟩

theorem settled_merge? (s t h : Arrow) (first : Settled d s) (second : Settled d t)
    (merged : merge? compress s t = some h) : Settled d h := by
  have step := (settled_shallow d s first).1
  have step' := (settled_shallow d t second).1
  cases merged_of_merge? compress step step' merged with
  | first a => exact second
  | last b proper => exact first
  | @framed _ _ F a b inside inside' =>
      have left := (content_of_inner? settles first inside).1
      have right := (content_of_inner? settles second inside').1
      exact .wrap (content_follow settles F a b left right)
  | undone undone => exact .identity _

theorem content_compress {s : Arrow} {F : Frame} {a : Arrow × Arrow}
    (inside : s.inner? = some (F, a)) (shallow : s.depth ≤ d) :
    Content d F (a.1.compress, a.2.compress) := by
  rw [depth_of_inner? inside] at shallow
  have left := depth_compress_le a.1
  have right := depth_compress_le a.2
  refine ⟨settles.again a.1 (by omega), settles.again a.2 (by omega), ?_, ?_⟩
  · simp only
    omega
  · have single := blank_of_inner? inside
    cases F with
    | conj k => trivial
    | not | always | quant q v =>
        have plain := eq_identity_of_isId a.2 single
        simp only [Frame.Blank]
        rw [plain]
        rfl

theorem settled_compressStep (s : Arrow) (shallow : s.Shallow d) :
    Settled d (compressStep compress s) := by
  rcases shallow.1.cases with ⟨c, rfl⟩ | ⟨p, rfl⟩ | ⟨F, a, inside⟩
  · exact .identity c
  · exact .prim p
  · rw [compressStep_inner compress compress_identity inside]
    exact .wrap (content_compress settles inside shallow.2)

theorem compressStep_settled (s : Arrow) (settled : Settled d s) :
    (compressStep compress s).outline = s.outline := by
  rcases (settled_shallow d s settled).1.cases with ⟨c, rfl⟩ | ⟨p, rfl⟩ | ⟨F, a, inside⟩
  · rfl
  · rfl
  · obtain ⟨content, back⟩ := content_of_inner? settles settled inside
    rw [compressStep_inner compress compress_identity inside]
    have same : outlines (a.1.compress, a.2.compress) = outlines a :=
      Prod.ext content.left content.right
    exact (outline_wrap_congr F same).trans (congrArg outline back)

theorem compressStep_congr (s t : Arrow) (shallow : s.Shallow d) (same : s.outline = t.outline) :
    (compressStep compress s).outline = (compressStep compress t).outline := by
  rcases shallow.1.cases with ⟨c, rfl⟩ | ⟨p, rfl⟩ | ⟨F, a, inside⟩
  · obtain ⟨c', rfl⟩ := eq_identity_of_outline same.symm
    rfl
  · obtain ⟨r, rfl, form⟩ := eq_prim_of_outline same.symm
    exact same
  · obtain ⟨b, inside', equal⟩ := inner?_congr same inside
    obtain ⟨first, second⟩ := Prod.mk.inj equal
    have deep := shallow.2
    rw [depth_of_inner? inside] at deep
    rw [compressStep_inner compress compress_identity inside,
      compressStep_inner compress compress_identity inside']
    apply outline_wrap_congr
    exact Prod.ext (settles.congr a.1 b.1 (by omega) first)
      (settles.congr a.2 b.2 (by omega) second)

theorem merge?_assoc_framed (F : Frame) (a b c : Arrow × Arrow) (w h : Arrow)
    (first : Content d F a) (second : Content d F b) (third : Content d F c)
    (left : merge? compress (F.wrap a) (F.wrap b) = some w)
    (right : merge? compress (F.wrap b) (F.wrap c) = some h) :
    ∃ z z', merge? compress w (F.wrap c) = some z ∧ merge? compress (F.wrap a) h = some z' ∧
      z.outline = z'.outline := by
  have front := content_follow settles F a b first second
  have back := content_follow settles F b c second third
  obtain ⟨w', left', front'⟩ := merge?_wrap settles F a b first second
  obtain ⟨h', right', back'⟩ := merge?_wrap settles F b c second third
  rw [left] at left'
  rw [right] at right'
  cases left'
  cases right'
  -- both sides are merges of wrapped arrows, up to outlines
  obtain ⟨x, merged, outer⟩ := merge?_wrap settles F _ c front third
  obtain ⟨x', merged', outer'⟩ := merge?_wrap settles F a _ first back
  obtain ⟨z, whole, same⟩ := merge?_congr settles _ w _ (F.wrap c) x
    (settled_shallow d _ (.wrap front)) (settled_shallow d _ (.wrap third)) front'.symm rfl merged
  obtain ⟨z', whole', same'⟩ := merge?_congr settles _ (F.wrap a) _ h x'
    (settled_shallow d _ (.wrap first)) (settled_shallow d _ (.wrap back)) rfl back'.symm merged'
  refine ⟨z, z', whole, whole', ?_⟩
  calc
    z.outline = (F.wrap (F.follow compress (F.follow compress a b) c)).outline := by
      rw [← same, outer]
    _ = (F.wrap (F.follow compress a (F.follow compress b c))).outline :=
      outline_wrap_congr F (follow_assoc settles F a b c first.shallow second.shallow third.shallow)
    _ = z'.outline := by rw [← outer', same']

/-- If a step merges with both its neighbours, it does not matter which merge comes first. An
identity in the middle is excluded, since its neighbours need not merge with each other. -/
theorem merge?_assoc (u t s w h : Arrow) (first : Settled d u) (second : Settled d t)
    (third : Settled d s) (proper : t.isId = false) (left : merge? compress u t = some w)
    (right : merge? compress t s = some h) :
    ∃ z z', merge? compress w s = some z ∧ merge? compress u h = some z' ∧
      z.outline = z'.outline := by
  have step := (settled_shallow d u first).1
  have step' := (settled_shallow d t second).1
  have step'' := (settled_shallow d s third).1
  -- an identity on the right changes nothing
  have ending (b : Formula) :
      ∃ z, merge? compress w (identity b) = some z ∧ z.outline = w.outline := by
    cases plain : w.isId with
    | true =>
        rw [eq_identity_of_isId w plain]
        exact ⟨identity b, rfl, rfl⟩
    | false => exact ⟨w, merge?_identity_last compress w b plain, rfl⟩
  cases merged_of_merge? compress step step' left with
  | first a => exact ⟨h, h, right, rfl, rfl⟩
  | last b _ => cases proper
  | @framed _ _ F a b inside inside' =>
      obtain ⟨content, rfl⟩ := content_of_inner? settles first inside
      obtain ⟨content', back⟩ := content_of_inner? settles second inside'
      cases merged_of_merge? compress step' step'' right with
      | first => cases proper
      | last c _ =>
          obtain ⟨z, merged, same⟩ := ending c
          exact ⟨z, _, merged, left, same⟩
      | @framed _ _ F' b' c inside'' inside''' =>
          rw [inside'] at inside''
          cases inside''
          obtain ⟨content'', rfl⟩ := content_of_inner? settles third inside'''
          subst back
          exact merge?_assoc_framed settles F a b c _ _ content content' content'' left right
      | undone => cases inside'
  | @undone p p' undone =>
      cases merged_of_merge? compress step' step'' right with
      | last c _ =>
          obtain ⟨z, merged, same⟩ := ending c
          exact ⟨z, _, merged, left, same⟩
      | framed inside => cases inside
      | @undone _ p'' undone' =>
          have back := undoes_twice p p' p'' undone undone'
          exact ⟨prim p'', prim p, rfl, rfl, by rw [outline, outline, back]⟩

end

end LinearCalculus.Arrow
