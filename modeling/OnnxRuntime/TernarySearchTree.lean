/-
The ternary search tree in which the tokenizer looks up its separators.
-/
import Mathlib.Data.List.Induction
import Mathlib.Data.List.Nodup
import Mathlib.Order.Lattice

namespace OnnxRuntime

open List

/-- The length of a separator, and its place among the separators. -/
structure SearchValue where
  wLen : Nat
  priority : Int

instance : LT SearchValue := ⟨fun a b => a.priority < b.priority⟩

instance : DecidableLT SearchValue := fun a b => Int.decLt a.priority b.priority

/-- A link to a node: `null`, or what the node holds. -/
inductive TernarySearchTree (CharT Value : Type)
  | null
  | node (left mid right : TernarySearchTree CharT Value) (c : CharT)
    (value : Option Value)

namespace TernarySearchTree

variable {CharT Value : Type} [LinearOrder CharT]

/-- The nodes that `put` makes from a null link on. -/
def newNodes (v : Value) (c : CharT) :
    List CharT → TernarySearchTree CharT Value
  | [] => node null null null c (some v)
  | next :: rest => node null (newNodes v next rest) null c none

/-- The private `put`: the new link, unless the key has a value. -/
def putAt (v : Value) : TernarySearchTree CharT Value → CharT → List CharT →
    Option (TernarySearchTree CharT Value)
  | null, c, rest => some (newNodes v c rest)
  | node left mid right c' value, c, rest =>
    if c < c' then
      (putAt v left c rest).map fun link => node link mid right c' value
    else if c' < c then
      (putAt v right c rest).map fun link => node left mid link c' value
    else match rest, value with
      | next :: rest, _ =>
        (putAt v mid next rest).map fun link => node left link right c' value
      | [], none => some (node left mid right c' (some v))
      | [], some _ => none

def put (t : TernarySearchTree CharT Value) :
    List CharT → Value → TernarySearchTree CharT Value × Bool
  | [], _ => (t, false)
  | c :: rest, v =>
    match t.putAt v c rest with
    | some root => (root, true)
    | none => (t, false)

section

variable [LT Value] [DecidableLT Value]

def updateState (value result : Option Value) : Option Value :=
  match value, result with
  | none, _ => result
  | some v, none => some v
  | some v, some best => if v < best then some v else some best

/-- The private `get`, from the result so far. -/
def getAt (result : Option Value) :
    TernarySearchTree CharT Value → CharT → List CharT → Option Value
  | null, _, _ => result
  | node left mid right c' value, c, rest =>
    if c < c' then getAt result left c rest
    else if c' < c then getAt result right c rest
    else match rest with
      | next :: rest => getAt (updateState value result) mid next rest
      | [] => updateState value result

def get (t : TernarySearchTree CharT Value) : List CharT → Option Value
  | [] => none
  | c :: rest => t.getAt none c rest

end

/-- The tree after calls of `put` with keys and priorities. -/
def after (calls : List (List CharT × Int)) :
    TernarySearchTree CharT SearchValue :=
  calls.foldl (fun t call => (t.put call.1 ⟨call.1.length, call.2⟩).1) null

/-- The value of a key, as a finite map. -/
def find : TernarySearchTree CharT Value → CharT → List CharT → Option Value
  | null, _, _ => none
  | node left mid right c' value, c, rest =>
    if c < c' then find left c rest
    else if c' < c then find right c rest
    else match rest with
      | next :: rest => find mid next rest
      | [] => value

variable {t t' : TernarySearchTree CharT Value} {v : Value} {c : CharT}
  {rest : List CharT}

theorem find_newNodes (c' : CharT) (rest' : List CharT) :
    find (newNodes v c rest) c' rest' =
      if c' :: rest' = c :: rest then some v else none := by
  induction rest generalizing c c' rest' with
  | nil => cases rest' <;> grind [newNodes, find]
  | cons next rest ih => cases rest' <;> grind [newNodes, find]

theorem putAt_eq_none_iff : t.putAt v c rest = none ↔ t.find c rest ≠ none := by
  fun_induction putAt v t c rest <;> grind [find.eq_def, Option.map_eq_none_iff]

/-- A new key gets its value, and the others keep theirs. -/
theorem find_of_putAt (h : t.putAt v c rest = some t') (c' : CharT)
    (rest' : List CharT) : t'.find c' rest' =
      if c' :: rest' = c :: rest then some v else t.find c' rest' := by
  fun_induction putAt v t c rest generalizing t' c' rest' with
  | case1 c rest =>
    cases h
    exact find_newNodes ..
  | case2 | case3 | case4 =>
    obtain ⟨link, hlink, rfl⟩ := Option.map_eq_some_iff.1 h
    cases rest' <;> grind [find]
  | case5 =>
    cases h
    cases rest' <;> grind [find]
  | case6 => cases h

/-- The first value that is put under a key stays. -/
theorem find_put (key : List CharT) :
    (t.put key v).1.find c rest =
      (t.find c rest).or (if key = c :: rest then some v else none) := by
  rcases key with _ | ⟨d, ds⟩
  · simp [put]
  · have hnone := @putAt_eq_none_iff _ _ _ t v d ds
    rw [put]
    split
    · rename_i root hroot
      grind [find_of_putAt hroot c rest]
    · cases hfind : t.find c rest <;> grind

theorem find_after (calls : List (List CharT × Int)) :
    (after calls).find c rest = (calls.find? (·.1 = c :: rest)).map
      fun call => ⟨call.1.length, call.2⟩ := by
  induction calls using reverseRecOn with
  | nil => rfl
  | append_singleton calls call ih =>
    rw [after, foldl_append, ← after, find?_append, Option.map_or, ← ih]
    refine (find_put ..).trans (congrArg _ ?_)
    simp only [find?_singleton, decide_eq_true_eq]
    split <;> rfl

/-- A best value of those that satisfy the predicate, if there is one. -/
def IsBest (P : SearchValue → Prop) : Option SearchValue → Prop
  | none => ∀ v, ¬ P v
  | some v => P v ∧ ∀ other, P other → v.priority ≤ other.priority

theorem IsBest.unique {P : SearchValue → Prop} {best best' : Option SearchValue}
    (h : IsBest P best)
    (hP : ∀ v w, P v → P w → v.priority = w.priority → v = w)
    (h' : IsBest P best') : best = best' := by
  cases best <;> cases best' <;> grind [IsBest]

theorem IsBest.of_updateState {P : SearchValue → Prop}
    {value result best : Option SearchValue}
    (h : IsBest (fun v => updateState value result = some v ∨ P v) best) :
    IsBest (fun v => result = some v ∨ value = some v ∨ P v) best := by
  have hlt (a b : SearchValue) : a < b ↔ a.priority < b.priority := Iff.rfl
  cases value <;> cases result <;> cases best <;> grind [IsBest, updateState]

theorem getAt_isBest (t : TernarySearchTree CharT SearchValue) (c : CharT)
    (rest : List CharT) (result : Option SearchValue) :
    IsBest (fun v => result = some v ∨
      ∃ front, front <+: rest ∧ t.find c front = some v)
      (t.getAt result c rest) := by
  fun_induction getAt result t c rest with
  | case1 result => cases result <;> simp [IsBest, find]
  | case2 result left mid right c' value c rest hlt ih =>
    simpa only [find, if_pos hlt] using ih
  | case3 result left mid right c' value c rest hle hlt ih =>
    simpa only [find, if_neg hle, if_pos hlt] using ih
  | case4 result left mid right c' value c hle hge next rest ih =>
    refine cast (congrArg (IsBest · _) (funext fun v => ?_)) ih.of_updateState
    simp [prefix_cons_iff, find, hle, hge, or_and_right, exists_or]
  | case5 result left mid right c' value c hle hge =>
    have hbest : IsBest (fun v => updateState value result = some v ∨ False)
        (updateState value result) := by
      cases updateState value result <;> simp [IsBest]
    simpa [find, hle, hge] using hbest.of_updateState

/-- The key is not empty, and was first put with the priority. -/
def Inserted (calls : List (List CharT × Int)) (key : List CharT)
    (priority : Int) : Prop :=
  key ≠ [] ∧ calls.find? (·.1 = key) = some (key, priority)

theorem isBest_get_after (calls : List (List CharT × Int)) {text : List CharT}
    (htext : text ≠ []) :
    IsBest (fun v => ∃ key, Inserted calls key v.priority ∧
      v.wLen = key.length ∧ key <+: text) ((after calls).get text) := by
  obtain ⟨c, rest, rfl⟩ := exists_cons_of_ne_nil htext
  refine cast (congrArg (IsBest · _) (funext fun v => propext ?_))
    ((after calls).getAt_isBest c rest none)
  simp only [find_after, Inserted, Option.map_eq_some_iff, reduceCtorEq,
    false_or]
  constructor
  · rintro ⟨front, hfront, ⟨key, priority⟩, hfound, rfl⟩
    obtain rfl : key = c :: front := by simpa using find?_some hfound
    exact ⟨c :: front, ⟨cons_ne_nil c front, hfound⟩, rfl,
      (prefix_cons_inj c).2 hfront⟩
  · rintro ⟨key, ⟨hkey, hfound⟩, hlen, hprefix⟩
    obtain rfl | ⟨front, rfl, hfront⟩ := prefix_cons_iff.1 hprefix
    · exact absurd rfl hkey
    · obtain ⟨wLen, priority⟩ := v
      cases hlen
      exact ⟨front, hfront, _, hfound, rfl⟩

/-- What the tree is for: a map in which a key is put once, and the best of the
keys that a text starts with. -/
structure FindsSeparators (calls : List (List CharT × Int)) : Prop where
  put : ∀ key, key ≠ [] → ∀ v, if key ∈ calls.map Prod.fst
    then (after calls).put key v = (after calls, false)
    else ((after calls).put key v).2 = true
  best : ∀ text, text ≠ [] → IsBest (fun v => ∃ key,
    Inserted calls key v.priority ∧ v.wLen = key.length ∧ key <+: text)
    ((after calls).get text)

theorem findsSeparators (calls : List (List CharT × Int)) :
    FindsSeparators calls where
  put := by
    rintro (_ | ⟨c, rest⟩) hkey v
    · exact absurd rfl hkey
    have hmem : c :: rest ∈ calls.map Prod.fst ↔
        (after calls).putAt v c rest = none := by
      simp [putAt_eq_none_iff, find_after]
    simp only [hmem, TernarySearchTree.put]
    cases (after calls).putAt v c rest <;> simp
  best _ := isBest_get_after calls

theorem inserted_iff {calls : List (List CharT × Int)} {key priority}
    (hkeys : (calls.map Prod.fst).Nodup) :
    Inserted calls key priority ↔ key ≠ [] ∧ (key, priority) ∈ calls := by
  induction calls with
  | nil => simp [Inserted]
  | cons call rest ih => grind [Inserted]

/-- Keys and priorities that are distinct may be put in any order. -/
theorem get_after_perm {calls calls' : List (List CharT × Int)}
    (h : calls.Perm calls') (hkeys : (calls.map Prod.fst).Nodup)
    (hpriorities : (calls.map Prod.snd).Nodup) (text : List CharT) :
    (after calls).get text = (after calls').get text := by
  rcases eq_or_ne text [] with rfl | htext
  · rfl
  have hbest := isBest_get_after calls htext
  have hbest' := isBest_get_after calls' htext
  simp only [inserted_iff hkeys] at hbest
  simp only [inserted_iff ((h.map _).nodup_iff.1 hkeys), ← h.mem_iff] at hbest'
  refine hbest.unique ?_ hbest'
  rintro ⟨_, p⟩ ⟨_, q⟩ ⟨key, ⟨-, hkey⟩, rfl, -⟩ ⟨key', ⟨-, hkey'⟩, rfl, -⟩ heq
  cases inj_on_of_nodup_map hpriorities hkey hkey' heq
  rfl

theorem get_after_perm_two : (after [([1], 0), ([1, 2], 1)]).get [1, 2] =
    (after [([1, 2], 1), ([1], 0)]).get [1, 2] :=
  get_after_perm (.swap ..) (by decide) (by decide) _

end TernarySearchTree

end OnnxRuntime
