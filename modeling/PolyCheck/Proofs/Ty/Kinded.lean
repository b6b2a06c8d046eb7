import PolyCheck.Kind
import PolyCheck.Proofs.Ty.Hereditary

/-! Kinds of types. Where definitions declare the kinds of their parameters, a type has a kind under
an assignment of kinds to variables; quantified types double as functions on types, so they may have
more than one. Types without applications whose definitions have as many arguments as parameters
have kind `*` as soon as all the parameters have it, whatever variables are in them. -/
namespace PolyCheck.Ty

/-- A type inside another one, or that type itself. -/
inductive Part (whole : Ty) : Ty → Prop where
  | here : Part whole whole
  | child {t c : Ty} (part : Part whole t) (member : c ∈ t.children) : Part whole c

variable {whole ty : Ty}

theorem Part.trans {t u : Ty} (outer : whole.Part t) (inner : t.Part u) : whole.Part u := by
  induction inner with
  | here => exact outer
  | child _ member ih => exact ih.child member

theorem part_of_children {t : Ty} (member : t ∈ ty.children) : ty.Part t := Part.here.child member

/-- The simple kind system. A quantifier gives its parameters kinds of their own. -/
inductive HasKind (declared : TemplateId → Option (List Kind)) : (TyVar → Kind) → Ty →
    Kind → Prop where
  | var {kinds : TyVar → Kind} (v : TyVar) : HasKind declared kinds (.var v) (kinds v)
  | arrow {kinds : TyVar → Kind} {param result : Ty} (fst : HasKind declared kinds param .star)
    (snd : HasKind declared kinds result .star) : HasKind declared kinds (.arrow param result) .star
  | tuple {kinds : TyVar → Kind} {elems : List Ty} (each : ∀ t ∈ elems,
      HasKind declared kinds t .star) : HasKind declared kinds (.tuple elems) .star
  | nominal {kinds : TyVar → Kind} {id : TemplateId} {args : List Ty} {params : List Kind}
    (known : declared id = some params) (length : args.length = params.length)
    (each : ∀ entry ∈ args.zip params, HasKind declared kinds entry.1 entry.2) :
    HasKind declared kinds (.nominal id args) .star
  | quantified {kinds inner : TyVar → Kind} {params : List TyVar} {body : Ty}
    (outside : ∀ v, v ∉ params → inner v = kinds v) (inside : HasKind declared inner body .star) :
    HasKind declared kinds (.quantified params body) .star
  | function {kinds inner : TyVar → Kind} {params : List TyVar} {body : Ty} {kind : Kind}
    (outside : ∀ v, v ∉ params → inner v = kinds v) (inside : HasKind declared inner body kind) :
    HasKind declared kinds (.quantified params body) (.function (params.map inner) kind)
  | app {kinds : TyVar → Kind} {head : Ty} {args : List Ty} {params : List Kind} {kind : Kind}
    (fst : HasKind declared kinds head (.function params kind))
      (length : args.length = params.length)
    (each : ∀ entry ∈ args.zip params, HasKind declared kinds entry.1 entry.2) :
    HasKind declared kinds (.app head args) kind

theorem HasKind.var_inv {declared : TemplateId → Option (List Kind)} {kinds : TyVar → Kind}
    {v : TyVar} {kind : Kind}
    (hasKind : (Ty.var v).HasKind declared kinds kind) : kinds v = kind := by
  generalize same : Ty.var v = ty at hasKind
  cases hasKind with
  | var w => rw [Ty.var.inj same]
  | _ => cases same

abbrev Unapplied (ty : Ty) : Prop := ty.Applied False

theorem Unapplied.part {t : Ty} (unapplied : whole.Unapplied) (part : whole.Part t) :
    t.Unapplied := by
  induction part with
  | here => exact unapplied
  | child _ member ih => exact (hereditary_applied False).children ih _ member

variable {declared : TemplateId → Option (List Kind)}

/-- Every definition in the type has as many arguments as parameters, and all its parameters have
kind `*`. -/
def Ordinary (declared : TemplateId → Option (List Kind)) (ty : Ty) : Prop :=
  ∀ id args, ty.Part (.nominal id args) →
    ∃ params, declared id = some params ∧ args.length = params.length ∧ ∀ kind ∈ params,
    kind = .star

theorem Ordinary.child {t : Ty} (ordinary : ty.Ordinary declared) (member : t ∈ ty.children) :
    t.Ordinary declared :=
  fun id args part => ordinary id args ((part_of_children member).trans part)

theorem Unapplied.hasKind (unapplied : ty.Unapplied) (ordinary : ty.Ordinary declared) :
    ty.HasKind declared (fun _ => .star) .star := by
  induction unapplied with
  | var v => exact .var v
  | arrow _ _ ihParam ihResult =>
    exact .arrow (ihParam (ordinary.child (by simp [children])))
      (ihResult (ordinary.child (by simp [children])))
  | tuple _ ih => exact .tuple fun t member => ih t member (ordinary.child member)
  | nominal _ ih =>
    obtain ⟨params, known, length, stars⟩ := ordinary _ _ .here
    refine .nominal known length fun entry member => ?_
    obtain ⟨isArg, isParam⟩ := List.of_mem_zip member
    rw [stars entry.2 isParam]
    exact ih entry.1 isArg (ordinary.child isArg)
  | quantified _ ih =>
    exact .quantified (fun _ _ => rfl) (ih (ordinary.child (List.mem_singleton_self _)))
  | app may => exact may.elim

/-- A type that leaves no application when it is given that many types, in one go or one after the
other. -/
inductive Absorbs : Nat → Ty → Prop where
  | none {ty : Ty} (unapplied : ty.Unapplied) : Absorbs 0 ty
  | quantified {params : List TyVar} {body : Ty} {count more : Nat} (inside : Absorbs more body)
    (enough : count ≤ params.length + more) : Absorbs count (.quantified params body)

namespace Absorbs

variable {count : Nat}

theorem unapplied (absorbs : Absorbs count ty) : ty.Unapplied := by
  induction absorbs with
  | none unapplied => exact unapplied
  | quantified _ _ ih => exact .quantified ih

theorem substitute {assignment : Assignment} (absorbs : Absorbs count ty)
    (images : ∀ v, (assignment.image v).Unapplied) : Absorbs count (ty.substitute assignment) := by
  induction absorbs generalizing assignment with
  | none unapplied => exact .none ((hereditary_applied False).substitute unapplied images)
  | quantified _ enough ih =>
    refine .quantified (ih fun v => ?_) enough
    rw [Assignment.image_without]
    split
    · exact .var v
    · exact images v

theorem substitute_ofLists {vars : List TyVar} {types : List Ty} (absorbs : Absorbs count ty)
    (each : ∀ t ∈ types, t.Unapplied) : Absorbs count (ty.substitute (.ofLists vars types)) := by
  refine absorbs.substitute fun v => ?_
  rcases Assignment.image_cases vars types v with member | ⟨same, -⟩
  · exact each _ member
  · exact same ▸ .var v

theorem le {fewer : Nat} (absorbs : Absorbs count ty) (less : fewer ≤ count) :
    Absorbs fewer ty := by
  cases absorbs with
  | none unapplied =>
    obtain rfl := Nat.le_zero.mp less
    exact .none unapplied
  | quantified inside enough => exact .quantified inside (less.trans enough)

theorem eq_quantified (absorbs : Absorbs count ty) (some : 0 < count) :
    ∃ params body, ty = .quantified params body ∧ ∃ more, Absorbs more body ∧
      count ≤ params.length + more := by
  cases absorbs with
  | none _ => exact absurd some (Nat.lt_irrefl 0)
  | quantified inside enough => exact ⟨_, _, rfl, _, inside, enough⟩

theorem quantified_inv {params : List TyVar} {body : Ty}
    (absorbs : Absorbs count (.quantified params body))
    (some : 0 < count) : ∃ more, Absorbs more body ∧ count ≤ params.length + more := by
  obtain ⟨_, _, same, more, inside, enough⟩ := absorbs.eq_quantified some
  obtain ⟨rfl, rfl⟩ := Ty.quantified.inj same
  exact ⟨more, inside, enough⟩

theorem apply {args : List Ty} {rest : Nat} (absorbs : Absorbs count ty)
    (each : ∀ t ∈ args, t.Unapplied)
    (enough : args.length + rest ≤ count) : Absorbs rest (ty.apply args) := by
  fun_induction Ty.apply ty args generalizing count with
  | case1 head => exact absorbs.le (by simpa using enough)
  | case2 body args some ih =>
    obtain ⟨more, inside, le⟩ :=
      absorbs.quantified_inv (by have := List.length_pos_iff.mpr some; omega)
    exact ih inside each (enough.trans (by simpa using le))
  | case3 p ps body a as =>
    obtain ⟨more, inside, le⟩ := absorbs.quantified_inv (by simp at enough; omega)
    refine .quantified (inside.substitute_ofLists each) ?_
    rw [List.length_drop]
    omega
  | case4 p ps body a as =>
    rename_i ih
    obtain ⟨more, inside, le⟩ := absorbs.quantified_inv (by simp at enough; omega)
    refine ih (inside.substitute_ofLists each)
      (fun t member => each t (List.mem_of_mem_drop member)) ?_
    rw [List.length_drop]
    omega
  | case5 inner first args some =>
    obtain ⟨_, _, same, -⟩ := absorbs.eq_quantified (by have := List.length_pos_iff.mpr some; omega)
    cases same
  | case6 other args some empty binds _ =>
    obtain ⟨params, body, rfl, -⟩ :=
      absorbs.eq_quantified (by have := List.length_pos_iff.mpr some; omega)
    obtain ⟨a, as, rfl⟩ := List.exists_cons_of_ne_nil some
    cases params with
    | nil => exact (empty body rfl).elim
    | cons p ps => exact (binds p ps body a as rfl rfl).elim

end Absorbs

end PolyCheck.Ty
