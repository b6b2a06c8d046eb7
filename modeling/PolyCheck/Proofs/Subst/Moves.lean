import PolyCheck.Proofs.Run
import PolyCheck.Subst.Unify

/-! What one step of unification can do, on all types. A step that succeeds looks at the heads of
two types and either makes two variables one, solves a variable, or leaves pairs of parts to be made
equal; quantifiers are opened at common new rigid variables, and a type with components is
abstracted over its last ones. -/
namespace PolyCheck

open Run

/-- A type abstracted over its last components, which are given beside the function. -/
structure Unify.Abstracts (subst : Subst) (ty : Ty) (count : Nat) (function : Ty) (parts : List Ty)
    (after : Subst) : Prop where
  positive : 0 < count
  shape : ∃ components build, components? ty = some (components, build) ∧
    count ≤ components.length ∧ after = (subst.pushMany (.rigid none) count).2 ∧
    function = .quantified (subst.pushMany (.rigid none) count).1
      (build (components.take (components.length - count) ++
        (subst.pushMany (.rigid none) count).1.map .var)) ∧
    parts = components.drop (components.length - count)

inductive Unify.Moves (depth : Nat) (subst : Subst) : Ty → Ty → List (Ty × Ty) → Subst → Prop where
  | same (x : TyVar) : Moves depth subst (.var x) (.var x) [] subst
  | link {x y : TyVar} (different : x ≠ y) (flexible : subst.isRigid x = false) :
    Moves depth subst (.var x) (.var y) [] (subst.link x y)
  | linkBack {x y : TyVar} (different : x ≠ y) (rigid : subst.isRigid x = true)
    (flexible : subst.isRigid y = false) : Moves depth subst (.var x) (.var y) [] (subst.link y x)
  | bind {x : TyVar} {ty : Ty} (notVar : ∀ y, ty ≠ .var y) (flexible : subst.isRigid x = false)
    (apart : subst.occursWithin x depth ty = some false) :
    Moves depth subst (.var x) ty [] (subst.bind x ty)
  | bindBack {x : TyVar} {ty : Ty} (notVar : ∀ y, ty ≠ .var y) (flexible : subst.isRigid x = false)
    (apart : subst.occursWithin x depth ty = some false) :
    Moves depth subst ty (.var x) [] (subst.bind x ty)
  | arrow (p r q s : Ty) : Moves depth subst (.arrow p r) (.arrow q s) [(p, q), (r, s)] subst
  | tuple {es fs : List Ty} (length : es.length = fs.length) :
    Moves depth subst (.tuple es) (.tuple fs) (es.zip fs) subst
  | nominal {template : TemplateId} {as bs : List Ty} (length : as.length = bs.length) :
    Moves depth subst (.nominal template as) (.nominal template bs) (as.zip bs) subst
  | quantified {ps qs : List TyVar} {b c b' c' : Ty} {skolems : List TyVar} {after : Subst}
    (length : ps.length = qs.length) (opened : subst.pushMany (.rigid none) ps.length =
      (skolems, after))
    (left : after.zonkWithin depth b = some b') (right : after.zonkWithin depth c = some c') :
    Moves depth subst (.quantified ps b) (.quantified qs c)
      [(b'.substitute (.ofLists ps (skolems.map .var)),
          c'.substitute (.ofLists qs (skolems.map .var)))]
      after
  | app (h : Ty) (as : List Ty) (k : Ty) (bs : List Ty) :
    Moves depth subst (.app h as) (.app k bs)
      (((splitApps h as k bs).1.1, (splitApps h as k bs).2.1) ::
        (splitApps h as k bs).1.2.zip (splitApps h as k bs).2.2) subst
  | abstract {h ty function : Ty} {as parts : List Ty} {after : Subst}
    (shape : Abstracts subst ty as.length function parts after) :
    Moves depth subst (.app h as) ty ((h, function) :: as.zip parts) after
  | abstractBack {k ty function : Ty} {bs parts : List Ty} {after : Subst}
    (shape : Abstracts subst ty bs.length function parts after) :
    Moves depth subst ty (.app k bs) ((function, k) :: parts.zip bs) after

namespace Unify

variable {depth : Nat} {subst after : Subst} {pair : Ty × Ty} {below : List (Ty × Ty)}

section PutBack

variable {head : Ty} {args : List Ty} {count : Nat}

/-- An application with so many of its first arguments put back to its head. -/
def putBack (head : Ty) (args : List Ty) (count : Nat) : Ty × List Ty :=
  if count = 0 then (head, args) else (.app head (args.take count), args.drop count)

theorem splitApps_eq (head : Ty) (args : List Ty) (head' : Ty) (args' : List Ty) :
    splitApps head args head' args' =
      (putBack head args (args.length - args'.length),
        putBack head' args' (args'.length - args.length)) := rfl

theorem putBack_each {holds : Ty → Prop} (fst : holds head) (each : ∀ t ∈ args, holds t)
    (back : count ≠ 0 → (∀ t ∈ args.take count, holds t) → holds (.app head (args.take count))) :
    holds (putBack head args count).1 ∧ ∀ t ∈ (putBack head args count).2, holds t := by
  unfold putBack
  split
  · exact ⟨fst, each⟩
  · rename_i some
    exact ⟨back some fun t member => each t (List.mem_of_mem_take member),
      fun t member => each t (List.mem_of_mem_drop member)⟩

end PutBack

theorem finished_eq_ok {α : Type} {found : Option α} {value : α} :
    finished found subst = .ok value after ↔ found = some value ∧ subst = after := by
  cases found with
  | none => simp [finished, throw_apply]
  | some result =>
    rw [finished, pure_eq_ok]
    simp

theorem vars_eq_ok {x y : TyVar} {value : Unit} (run : vars x y subst = .ok value after) :
    Moves depth subst (.var x) (.var y) [] after := by
  simp only [vars, bind_apply, get_apply] at run
  split at run
  · rename_i equal
    obtain ⟨-, rfl⟩ := pure_eq_ok.mp run
    exact equal ▸ .same x
  · rename_i different
    split at run
    · rename_i flexible
      obtain ⟨-, rfl⟩ := EStateM.Result.ok.inj run
      exact .link different (by simpa using flexible)
    · rename_i rigid
      split at run
      · rename_i flexible
        obtain ⟨-, rfl⟩ := EStateM.Result.ok.inj run
        exact .linkBack different (by simpa using rigid) (by simpa using flexible)
      · simp [throw_apply] at run

theorem varWith_eq_ok {x : TyVar} {ty : Ty} {value : Unit}
    (run : varWith depth x ty subst = .ok value after) :
    subst.isRigid x = false ∧ subst.occursWithin x depth ty = some false ∧
      after = subst.bind x ty := by
  simp only [varWith, bind_apply, get_apply] at run
  split at run
  · simp [throw_apply] at run
  · rename_i flexible
    obtain ⟨occurs, middle, here, rest⟩ := bind_eq_ok.mp run
    obtain ⟨found, rfl⟩ := finished_eq_ok.mp here
    split at rest
    · simp [throw_apply] at rest
    · rename_i apart
      obtain ⟨-, rfl⟩ := EStateM.Result.ok.inj rest
      exact ⟨by simpa using flexible, by simpa [apart] using found, rfl⟩

theorem etaExpand?_eq_ok {ty function : Ty} {count : Nat} {parts : List Ty}
    (run : etaExpand? ty count subst = .ok (some (function, parts)) after) :
    Abstracts subst ty count function parts after := by
  unfold etaExpand? at run
  cases known : components? ty with
  | none => simp [known, pure_eq_ok] at run
  | some found =>
    obtain ⟨components, build⟩ := found
    simp only [known] at run
    split at run
    · simp [pure_eq_ok] at run
    · rename_i fits
      obtain ⟨params, middle, here, rest⟩ := bind_eq_ok.mp run
      obtain ⟨rfl, rfl⟩ := EStateM.Result.ok.inj here
      obtain ⟨same, rfl⟩ := pure_eq_ok.mp rest
      obtain ⟨rfl, rfl⟩ := Prod.mk.inj (Option.some.inj same)
      exact ⟨by omega, components, build, known, by omega, rfl, rfl, rfl⟩

theorem step_eq_ok (run : step depth pair subst = .ok below after) :
    ∃ left right, subst.shallowWithin depth pair.1 = some left ∧
      subst.shallowWithin depth pair.2 = some right ∧ Moves depth subst left right below after := by
  unfold step at run
  obtain ⟨current, middle, here, rest⟩ := bind_eq_ok.mp run
  obtain ⟨rfl, rfl⟩ := EStateM.Result.ok.inj here
  obtain ⟨left, middle, here, rest⟩ := bind_eq_ok.mp rest
  obtain ⟨shallow, rfl⟩ := finished_eq_ok.mp here
  obtain ⟨right, middle, here, rest⟩ := bind_eq_ok.mp rest
  obtain ⟨shallow', rfl⟩ := finished_eq_ok.mp here
  refine ⟨left, right, shallow, shallow', ?_⟩
  split at rest
  · obtain ⟨value, middle, here, finish⟩ := bind_eq_ok.mp rest
    obtain ⟨rfl, rfl⟩ := pure_eq_ok.mp finish
    exact vars_eq_ok here
  · rename_i x notVar
    obtain ⟨value, middle, here, finish⟩ := bind_eq_ok.mp rest
    obtain ⟨rfl, rfl⟩ := pure_eq_ok.mp finish
    obtain ⟨flexible, apart, rfl⟩ := varWith_eq_ok here
    exact .bind notVar flexible apart
  · rename_i x notVar
    obtain ⟨value, middle, here, finish⟩ := bind_eq_ok.mp rest
    obtain ⟨rfl, rfl⟩ := pure_eq_ok.mp finish
    obtain ⟨flexible, apart, rfl⟩ := varWith_eq_ok here
    exact .bindBack notVar flexible apart
  · obtain ⟨rfl, rfl⟩ := pure_eq_ok.mp rest
    exact .arrow ..
  · split at rest
    · rename_i length
      obtain ⟨rfl, rfl⟩ := pure_eq_ok.mp rest
      exact .tuple length
    · simp [throw_apply] at rest
  · split at rest
    · rename_i same
      obtain ⟨rfl, length⟩ := same
      obtain ⟨rfl, rfl⟩ := pure_eq_ok.mp rest
      exact .nominal length
    · simp [throw_apply] at rest
  · split at rest
    · rename_i length
      obtain ⟨skolems, middle, here, rest⟩ := bind_eq_ok.mp rest
      obtain ⟨rfl, rfl⟩ := EStateM.Result.ok.inj here
      obtain ⟨current, middle, here, rest⟩ := bind_eq_ok.mp rest
      obtain ⟨rfl, rfl⟩ := EStateM.Result.ok.inj here
      obtain ⟨b, middle, here, rest⟩ := bind_eq_ok.mp rest
      obtain ⟨zonk, rfl⟩ := finished_eq_ok.mp here
      obtain ⟨c, middle, here, rest⟩ := bind_eq_ok.mp rest
      obtain ⟨zonk', rfl⟩ := finished_eq_ok.mp here
      obtain ⟨rfl, rfl⟩ := pure_eq_ok.mp rest
      exact .quantified length rfl zonk zonk'
    · simp [throw_apply] at rest
  · obtain ⟨rfl, rfl⟩ := pure_eq_ok.mp rest
    exact .app ..
  · obtain ⟨found, middle, here, rest⟩ := bind_eq_ok.mp rest
    cases found with
    | none => simp [throw_apply] at rest
    | some found =>
      obtain ⟨rfl, rfl⟩ := pure_eq_ok.mp rest
      exact .abstract (etaExpand?_eq_ok here)
  · obtain ⟨found, middle, here, rest⟩ := bind_eq_ok.mp rest
    cases found with
    | none => simp [throw_apply] at rest
    | some found =>
      obtain ⟨rfl, rfl⟩ := pure_eq_ok.mp rest
      exact .abstractBack (etaExpand?_eq_ok here)
  · simp [throw_apply] at rest

theorem finished_eq_error {α : Type} {found : Option α} {error : UnifyError}
    (run : finished found subst = .error error after) : after = subst := by
  cases found with
  | none => exact (EStateM.Result.error.inj run).2.symm
  | some _ => cases run

theorem vars_eq_error {x y : TyVar} {error : UnifyError}
    (run : vars x y subst = .error error after) : after = subst := by
  simp only [vars, bind_apply, get_apply] at run
  split at run
  · cases run
  · split at run
    · cases run
    · split at run
      · cases run
      · exact (EStateM.Result.error.inj run).2.symm

theorem varWith_eq_error {x : TyVar} {ty : Ty} {error : UnifyError}
    (run : varWith depth x ty subst = .error error after) : after = subst := by
  simp only [varWith, bind_apply, get_apply] at run
  split at run
  · exact (EStateM.Result.error.inj run).2.symm
  · rcases bind_eq_error.mp run with run | ⟨occurs, middle, here, run⟩
    · exact finished_eq_error run
    · obtain ⟨-, rfl⟩ := finished_eq_ok.mp here
      split at run
      · exact (EStateM.Result.error.inj run).2.symm
      · cases run

theorem etaExpand?_state {ty : Ty} {found : Option (Ty × List Ty)} {count : Nat}
    (run : etaExpand? ty count subst = .ok found after) : ∃ made,
      after = (subst.pushMany (.rigid none) made).2 := by
  unfold etaExpand? at run
  cases known : components? ty with
  | none =>
    simp only [known] at run
    exact ⟨0, (pure_eq_ok.mp run).2.symm⟩
  | some components =>
    simp only [known] at run
    split at run
    · exact ⟨0, (pure_eq_ok.mp run).2.symm⟩
    · obtain ⟨params, middle, here, rest⟩ := bind_eq_ok.mp run
      obtain ⟨rfl, rfl⟩ := EStateM.Result.ok.inj here
      exact ⟨count, (pure_eq_ok.mp rest).2.symm⟩

theorem etaExpand?_ne_error {ty : Ty} {count : Nat} {error : UnifyError} :
    etaExpand? ty count subst ≠ .error error after := by
  intro run
  unfold etaExpand? at run
  cases known : components? ty with
  | none =>
    simp only [known] at run
    cases run
  | some components =>
    simp only [known] at run
    split at run
    · cases run
    · rcases bind_eq_error.mp run with run | ⟨params, middle, here, run⟩
      · cases run
      · cases run

theorem step_eq_error {error : UnifyError} (run : step depth pair subst = .error error after) :
    ∃ made, after = (subst.pushMany (.rigid none) made).2 := by
  unfold step at run
  rcases bind_eq_error.mp run with run | ⟨current, middle, here, run⟩
  · cases run
  obtain ⟨rfl, rfl⟩ := EStateM.Result.ok.inj here
  rcases bind_eq_error.mp run with run | ⟨left, middle, here, run⟩
  · exact ⟨0, finished_eq_error run⟩
  obtain ⟨-, rfl⟩ := finished_eq_ok.mp here
  rcases bind_eq_error.mp run with run | ⟨right, middle, here, run⟩
  · exact ⟨0, finished_eq_error run⟩
  obtain ⟨-, rfl⟩ := finished_eq_ok.mp here
  have thrown : ∀ {error' : UnifyError}, (throw error' : Unify (List (Ty × Ty))) subst =
    .error error after → ∃ made, after = (subst.pushMany (.rigid none) made).2 :=
    fun run => ⟨0, (EStateM.Result.error.inj run).2.symm⟩
  split at run
  · rcases bind_eq_error.mp run with run | ⟨_, _, _, run⟩
    · exact ⟨0, vars_eq_error run⟩
    · cases run
  · rcases bind_eq_error.mp run with run | ⟨_, _, _, run⟩
    · exact ⟨0, varWith_eq_error run⟩
    · cases run
  · rcases bind_eq_error.mp run with run | ⟨_, _, _, run⟩
    · exact ⟨0, varWith_eq_error run⟩
    · cases run
  · cases run
  · split at run
    · cases run
    · exact thrown run
  · split at run
    · cases run
    · exact thrown run
  · split at run
    · rename_i params _ _ _ _
      rcases bind_eq_error.mp run with run | ⟨skolems, middle, here, run⟩
      · cases run
      obtain ⟨rfl, rfl⟩ := EStateM.Result.ok.inj here
      rcases bind_eq_error.mp run with run | ⟨current, middle, here, run⟩
      · cases run
      obtain ⟨rfl, rfl⟩ := EStateM.Result.ok.inj here
      rcases bind_eq_error.mp run with run | ⟨body, middle, here, run⟩
      · exact ⟨_, finished_eq_error run⟩
      obtain ⟨-, rfl⟩ := finished_eq_ok.mp here
      rcases bind_eq_error.mp run with run | ⟨body', middle, here, run⟩
      · exact ⟨_, finished_eq_error run⟩
      · cases run
    · exact thrown run
  · cases run
  · rcases bind_eq_error.mp run with run | ⟨found, middle, here, run⟩
    · exact absurd run etaExpand?_ne_error
    · obtain ⟨made, rfl⟩ := etaExpand?_state here
      cases found with
      | none => exact ⟨made, (EStateM.Result.error.inj run).2.symm⟩
      | some _ => cases run
  · rcases bind_eq_error.mp run with run | ⟨found, middle, here, run⟩
    · exact absurd run etaExpand?_ne_error
    · obtain ⟨made, rfl⟩ := etaExpand?_state here
      cases found with
      | none => exact ⟨made, (EStateM.Result.error.inj run).2.symm⟩
      | some _ => cases run
  · exact thrown run

end Unify

end PolyCheck
