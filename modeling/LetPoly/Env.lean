import LetPoly.Scheme

/-!
# Typing environments

An environment assigns schemes to finitely many program variables.  `Env.find?`
is the view through which every operation is described, and two environments
with the same view are equal.

`Env.generalize` quantifies exactly the variables of a type that the environment
does not use free, in code point order.
-/

namespace LetPoly

/-- Finite maps from program variables to schemes. -/
structure Env where
  map : NameMap Scheme
deriving DecidableEq

namespace Env

instance : EmptyCollection Env where
  emptyCollection := ⟨∅⟩

/-! ## The view -/

/-- The scheme of a variable, if it is bound. -/
def find? (env : Env) (name : Var) : Option Scheme :=
  env.map[name]?

@[ext]
theorem ext {first second : Env}
    (agree : ∀ name, first.find? name = second.find? name) : first = second := by
  cases first
  cases second
  exact congrArg Env.mk (Std.ExtTreeMap.ext_getElem? agree)

@[simp]
theorem find?_empty (name : Var) : (∅ : Env).find? name = none :=
  Std.ExtTreeMap.getElem?_empty

/-! ## Bindings -/

/-- Bind a variable, in place of an older binding. -/
def insert (env : Env) (name : Var) (scheme : Scheme) : Env :=
  ⟨env.map.insert name scheme⟩

@[simp]
theorem find?_insert (env : Env) (name other : Var) (scheme : Scheme) :
    (env.insert name scheme).find? other =
      if other = name then some scheme else env.find? other :=
  NameMap.getElem?_insert_eq env.map name other scheme

/-- Remove the binding of a variable. -/
def erase (env : Env) (name : Var) : Env :=
  ⟨env.map.erase name⟩

@[simp]
theorem find?_erase (env : Env) (name other : Var) :
    (env.erase name).find? other = if other = name then none else env.find? other :=
  NameMap.getElem?_erase_eq env.map name other

/-- The environment with the given bindings; the last binding of a variable
counts. -/
def ofList (bindings : List (Var × Scheme)) : Env :=
  bindings.foldl (fun env binding => env.insert binding.1 binding.2) ∅

theorem find?_ofList (bindings : List (Var × Scheme)) (name : Var) :
    (ofList bindings).find? name = bindings.reverse.lookup name := by
  rw [ofList, ← List.foldr_reverse]
  induction bindings.reverse with
  | nil => simp
  | cons binding remaining induction =>
      obtain ⟨key, scheme⟩ := binding
      by_cases equal : name = key
      · simp [equal]
      · simp [List.lookup_cons, equal, beq_false_of_ne equal, induction]

/-- The bindings of both environments; the first one wins where both bind a
variable. -/
def merge (first second : Env) : Env :=
  ⟨second.map ∪ first.map⟩

@[simp]
theorem find?_merge (first second : Env) (name : Var) :
    (first.merge second).find? name = (first.find? name).or (second.find? name) := by
  simp [merge, find?, Std.ExtTreeMap.getElem?_union]

/-- The bindings in code point order of their variables. -/
def toList (env : Env) : List (Var × Scheme) :=
  env.map.toList

@[simp]
theorem mem_toList {env : Env} {name : Var} {scheme : Scheme} :
    (name, scheme) ∈ env.toList ↔ env.find? name = some scheme :=
  Std.ExtTreeMap.mem_toList_iff_getElem?_eq_some

/-- The number of bindings. -/
def size (env : Env) : Nat :=
  env.map.size

/-- Whether there are no bindings. -/
def isEmpty (env : Env) : Bool :=
  env.map.isEmpty

/-! ## Type variables -/

/-- Collect a set of variables over all schemes of an environment. -/
def collect (names : Scheme → NameSet) (env : Env) : NameSet :=
  env.toList.foldr (fun binding collected => names binding.2 ∪ collected) ∅

theorem mem_collect {names : Scheme → NameSet} {env : Env} {name : TyVar} :
    name ∈ env.collect names ↔
      ∃ var scheme, env.find? var = some scheme ∧ name ∈ names scheme := by
  have listed : ∀ bindings : List (Var × Scheme),
      name ∈ bindings.foldr (fun binding collected => names binding.2 ∪ collected) ∅ ↔
        ∃ var scheme, (var, scheme) ∈ bindings ∧ name ∈ names scheme := by
    intro bindings
    induction bindings with
    | nil => simp
    | cons binding remaining induction =>
        rw [List.foldr_cons, Std.ExtTreeSet.mem_union_iff, induction]
        constructor
        · rintro (here | ⟨var, scheme, member, found⟩)
          · exact ⟨binding.1, binding.2, .head _, here⟩
          · exact ⟨var, scheme, .tail _ member, found⟩
        · rintro ⟨var, scheme, member, found⟩
          cases member with
          | head => exact .inl found
          | tail _ member => exact .inr ⟨var, scheme, member, found⟩
  simp only [collect, listed, mem_toList]

/-- The variables free in some scheme. -/
def freeVars (env : Env) : NameSet :=
  env.collect Scheme.freeVars

theorem mem_freeVars {env : Env} {name : TyVar} :
    name ∈ env.freeVars ↔
      ∃ var scheme, env.find? var = some scheme ∧ name ∈ scheme.freeVars :=
  mem_collect

/-- The variables written in some scheme, quantified or not. -/
def mentioned (env : Env) : NameSet :=
  env.collect Scheme.mentioned

theorem mem_mentioned {env : Env} {name : TyVar} :
    name ∈ env.mentioned ↔
      ∃ var scheme, env.find? var = some scheme ∧ name ∈ scheme.mentioned :=
  mem_collect

/-- Substitute in every scheme.  Nothing is visited if there is nothing to put in. -/
def subst (env : Env) (subst : Subst) : Env :=
  if subst.isEmpty then env else ⟨env.map.map fun _ scheme => scheme.subst subst⟩

@[simp]
theorem find?_subst (env : Env) (subst : Subst) (name : Var) :
    (env.subst subst).find? name = (env.find? name).map (·.subst subst) := by
  by_cases empty : subst.isEmpty = true
  · rw [Env.subst, if_pos empty, Subst.isEmpty_iff.mp empty]
    simp [Scheme.subst_empty]
  · simp [Env.subst, empty, find?, Std.ExtTreeMap.getElem?_map]

/-- Quantify the variables of a type that are not free in the environment, in
code point order. -/
def generalize (env : Env) (ty : Ty) : Scheme :=
  ⟨(ty.vars \ env.freeVars).toList, ty⟩

/-- Bind a variable to a type, generalized in the environment itself. -/
def insertGeneral (env : Env) (name : Var) (ty : Ty) : Env :=
  env.insert name (env.generalize ty)

/-! ## Text -/

/-- The text of an environment. -/
def render (env : Env) : String :=
  Text.braced (env.toList.map fun binding => binding.1 ++ ": " ++ binding.2.render)

instance : ToString Env where
  toString := render

end Env

end LetPoly
