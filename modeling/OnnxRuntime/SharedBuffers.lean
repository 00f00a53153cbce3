/-
Values that share buffers under reference counts.  A value gets a buffer of its
own, or is attached to the buffer of another value; a buffer whose count drops
to zero is put on a free list.  The counts are exact, and values that are still
needed share a buffer only if they have the same content.
-/
import Mathlib.Algebra.Order.BigOperators.Group.List
import Mathlib.Data.List.Nodup
import Mathlib.Tactic.Linarith

namespace OnnxRuntime

open List Function

universe u

variable {V : Type u} [DecidableEq V]

/-- `buf` names a buffer by its first value, `count` is the number of uses of a
buffer, `log` are the values written so far, the last one first. -/
@[ext]
structure Buffers (V : Type u) where
  buf : V → V
  count : V → Int
  free : List V
  log : List V

namespace Buffers

/-- A value is written to a buffer of its own. -/
def fresh (s : Buffers V) (v : V) : Buffers V :=
  { s with log := v :: s.log }

/-- A value is written to the buffer of `w`. -/
def attach (s : Buffers V) (v w : V) : Buffers V :=
  { s with
    buf := Function.update s.buf v (s.buf w)
    count := Function.update s.count (s.buf w) (s.count (s.buf w) + s.count v)
    log := v :: s.log }

/-- A value is written to a free buffer. -/
def recycle (s : Buffers V) (v b : V) : Buffers V :=
  { s.attach v b with free := s.free.erase b }

/-- A use of a value has taken place. -/
def drop (s : Buffers V) (v : V) : Buffers V :=
  { s with
    count := Function.update s.count (s.buf v) (s.count (s.buf v) - 1)
    free := if s.count (s.buf v) - 1 = 0 then s.buf v :: s.free else s.free }

/-- The values that exist: those given beforehand and those written. -/
def defined (sources : List V) (s : Buffers V) : List V := s.log ++ sources

/-- The values in a buffer. -/
def group (sources : List V) (s : Buffers V) (b : V) : List V :=
  (s.defined sources).filter fun v => s.buf v = b

/-- The counts are exact: `rem v` is how often `v` is still used.  Values that
are still to be written have their own buffer. -/
structure Accounted (sources : List V) (writable : V → Prop) (rem : V → Nat)
    (s : Buffers V) : Prop where
  nodup : (s.defined sources).Nodup
  own : ∀ v, writable v → v ∉ s.defined sources →
    s.buf v = v ∧ s.count v = rem v
  root : ∀ v ∈ s.defined sources, s.buf v ∈ s.defined sources ∧
    s.buf (s.buf v) = s.buf v
  total : ∀ b ∈ s.defined sources, s.buf b = b →
    s.count b = (((s.group sources b).map rem).sum : Nat)
  free_nodup : s.free.Nodup
  free_root : ∀ b ∈ s.free, b ∈ s.defined sources ∧ s.buf b = b ∧ s.count b = 0

/-- Values that are still needed share a buffer only with values of the same
content, now and in what was written since they were produced. -/
structure Separated (same : V → V → Prop) (sources : List V)
    (need : V → Nat) (s : Buffers V) : Prop where
  live : ∀ v ∈ s.defined sources, ∀ w ∈ s.defined sources,
    s.buf v = s.buf w → 0 < need v → 0 < need w → same v w
  since : ∀ v ∈ s.defined sources, 0 < need v →
    ∀ w ∈ s.log.takeWhile (fun x => x ≠ v), s.buf w = s.buf v → same v w

variable {sources : List V} {writable : V → Prop} {rem need : V → Nat}
  {s : Buffers V} {v b w : V} {s' : Buffers V}

theorem mem_group :
    v ∈ s.group sources b ↔ v ∈ s.defined sources ∧ s.buf v = b := by
  simp [group]

section

variable (h : Accounted sources writable rem s) (hv : v ∈ s.defined sources)
include h hv

/-- One use of a value is one use of its buffer. -/
theorem Accounted.rem_le_count : (rem v : Int) ≤ s.count (s.buf v) := by
  obtain ⟨hroot, hbuf⟩ := h.root v hv
  rw [h.total _ hroot hbuf]
  exact Int.ofNat_le.mpr (single_le_sum (fun _ _ => Nat.zero_le _) _
    (mem_map_of_mem (mem_group.mpr ⟨hv, rfl⟩)))

/-- Two values in one buffer use it at least as often as both together. -/
theorem Accounted.add_le_count (hw : w ∈ s.defined sources) (hne : v ≠ w)
    (hbuf : s.buf v = s.buf w) :
    (rem v : Int) + rem w ≤ s.count (s.buf w) := by
  obtain ⟨hroot, hroot'⟩ := h.root w hw
  rw [h.total _ hroot hroot']
  have hperm := perm_cons_erase (mem_group.mpr ⟨hv, hbuf⟩)
  have hmem : w ∈ (s.group sources (s.buf w)).erase v :=
    (mem_erase_of_ne hne.symm).mpr (mem_group.mpr ⟨hw, rfl⟩)
  have hsum := (hperm.map rem).sum_eq
  rw [map_cons, sum_cons] at hsum
  have hle : rem w ≤ (((s.group sources (s.buf w)).erase v).map rem).sum :=
    single_le_sum (fun _ _ => Nat.zero_le _) _ (mem_map_of_mem hmem)
  omega

theorem Accounted.rem_eq_zero (hcount : s.count (s.buf v) = 0) : rem v = 0 := by
  have hle := h.rem_le_count hv
  omega

theorem Accounted.not_mem_free (hrem : 0 < rem v) : s.buf v ∉ s.free := by
  intro hfree
  have hzero := h.rem_eq_zero hv (h.free_root _ hfree).2.2
  omega

end

/-- A value not yet written shares its buffer with nobody. -/
theorem Accounted.buf_ne_of_not_mem (h : Accounted sources writable rem s)
    (hv : v ∉ s.defined sources) (hw : w ∈ s.defined sources) :
    s.buf w ≠ v := by
  intro heq
  exact hv (heq ▸ (h.root w hw).1)

@[simp] theorem defined_attach (v w : V) :
    (s.attach v w).defined sources = v :: s.defined sources := rfl

theorem group_fresh (v b : V) :
    (s.fresh v).group sources b =
      if s.buf v = b then v :: s.group sources b else s.group sources b := by
  change (v :: s.defined sources).filter (fun x => s.buf x = b) = _
  rw [filter_cons]
  by_cases heq : s.buf v = b <;> simp [group]

section

variable (h : Accounted sources writable rem s)
include h

theorem nodup_group (b : V) :
    (s.group sources b).Nodup :=
  h.nodup.filter _

theorem Accounted.fresh (hwritable : writable v) (hv : v ∉ s.defined sources) :
    Accounted sources writable rem (s.fresh v) where
  nodup := nodup_cons.mpr ⟨hv, h.nodup⟩
  own w hwrite hw := h.own w hwrite fun hmem =>
    hw (mem_cons_of_mem _ hmem)
  root w hw := by
    rcases mem_cons.mp hw with rfl | hw
    · have hown : s.buf w = w := (h.own w hwritable hv).1
      exact ⟨mem_cons.mpr (.inl hown), (congrArg s.buf hown).trans rfl⟩
    · exact ⟨mem_cons_of_mem _ (h.root w hw).1, (h.root w hw).2⟩
  total b hb hroot := by
    have hnone : s.group sources v = [] := by
      rw [eq_nil_iff_forall_not_mem]
      intro w hw
      exact h.buf_ne_of_not_mem hv (mem_group.mp hw).1 (mem_group.mp hw).2
    rw [group_fresh, (h.own v hwritable hv).1]
    by_cases heq : v = b
    · subst heq
      rw [if_pos rfl, hnone, map_singleton]
      exact (h.own v hwritable hv).2
    · rw [if_neg heq]
      exact h.total b ((mem_cons.mp hb).resolve_left (Ne.symm heq)) hroot
  free_nodup := h.free_nodup
  free_root b hb :=
    ⟨mem_cons_of_mem _ (h.free_root b hb).1, (h.free_root b hb).2⟩

/-- Attaching a value to a buffer that is not free keeps the counts exact. -/
theorem Accounted.attach (hwritable : writable v) (hv : v ∉ s.defined sources)
    (hw : w ∈ s.defined sources) (hfree : s.buf w ∉ s.free) :
    Accounted sources writable rem (s.attach v w) := by
  obtain ⟨hroot, hbuf⟩ := h.root w hw
  have hne : s.buf w ≠ v := h.buf_ne_of_not_mem hv hw
  have hold : ∀ x, x ≠ v → (s.attach v w).buf x = s.buf x := fun x hx => by
    simp [Buffers.attach, hx]
  have hnew : (s.attach v w).buf v = s.buf w := by simp [Buffers.attach]
  have hcount : ∀ x, x ≠ s.buf w → (s.attach v w).count x = s.count x :=
    fun x hx => by simp [Buffers.attach, hx]
  have hmem : ∀ x ∈ s.defined sources, x ≠ v := fun x hx heq => hv (heq ▸ hx)
  have hgroup : ∀ b, (s.attach v w).group sources b =
      if s.buf w = b then v :: s.group sources b else s.group sources b := by
    intro b
    have hfilter : (s.defined sources).filter
        (fun x => (s.attach v w).buf x = b) = s.group sources b := by
      apply filter_congr
      intro x hx
      rw [hold x (hmem x hx)]
    rw [group, defined_attach, filter_cons, hfilter, hnew]
    by_cases heq : s.buf w = b <;> simp [heq]
  constructor
  · exact nodup_cons.mpr ⟨hv, h.nodup⟩
  · intro x hwrite hx
    rw [defined_attach, mem_cons, not_or] at hx
    rw [hold x hx.1, hcount x fun heq => hx.2 (heq ▸ hroot)]
    exact h.own x hwrite hx.2
  · intro x hx
    rcases mem_cons.mp hx with rfl | hx
    · rw [hnew, hold _ hne]
      exact ⟨mem_cons_of_mem _ hroot, hbuf⟩
    · have hroot := h.root x hx
      rw [hold x (hmem x hx), hold _ (hmem _ hroot.1)]
      exact ⟨mem_cons_of_mem _ hroot.1, hroot.2⟩
  · intro b hb hbroot
    rcases mem_cons.mp hb with rfl | hb
    · exact absurd (hnew.symm.trans hbroot) hne
    · rw [hold b (hmem b hb)] at hbroot
      rw [hgroup]
      by_cases heq : s.buf w = b
      · rw [if_pos heq, map_cons, sum_cons]
        have hsum := h.total b hb hbroot
        have hown := (h.own v hwritable hv).2
        subst heq
        simp only [Buffers.attach, update_self]
        omega
      · rw [if_neg heq, hcount b (Ne.symm heq)]
        exact h.total b hb hbroot
  · exact h.free_nodup
  · intro b hb
    have hbfree : b ∈ s.free := hb
    obtain ⟨hdefined, hbroot, hzero⟩ := h.free_root b hbfree
    rw [hold b (hmem b hdefined), hcount b fun heq => hfree (heq ▸ hbfree)]
    exact ⟨mem_cons_of_mem _ hdefined, hbroot, hzero⟩

/-- Taking a buffer off the free list keeps the counts exact. -/
theorem Accounted.erase_free (b : V) :
    Accounted sources writable rem { s with free := s.free.erase b } :=
  { h with
    free_nodup := h.free_nodup.erase b
    free_root := fun c hc => h.free_root c (mem_of_mem_erase hc) }

/-- Uses are dropped one by one. -/
theorem Accounted.drop {rem' : V → Nat} (hv : v ∈ s.defined sources)
    (hrem : ∀ x, rem x = if x = v then rem' x + 1 else rem' x) :
    Accounted sources writable rem' (s.drop v) := by
  obtain ⟨hroot, hbuf⟩ := h.root v hv
  have hsum : ∀ values : List V, values.Nodup → (values.map rem).sum =
        (values.map rem').sum + if v ∈ values then 1 else 0 := by
    intro values hnodup
    induction values with
    | nil => simp
    | cons x rest ih =>
      obtain ⟨hx, hrest⟩ := nodup_cons.mp hnodup
      rw [map_cons, sum_cons, ih hrest, hrem x]
      by_cases heq : x = v
      · subst heq
        simp [hx]
        omega
      · simp [heq, Ne.symm heq]
        omega
  have htotal : ∀ b ∈ s.defined sources, s.buf b = b →
      (s.drop v).count b = (((s.group sources b).map rem').sum : Nat) := by
    intro b hb hbroot
    have hold := h.total b hb hbroot
    rw [hsum _ (nodup_group h b)] at hold
    by_cases heq : s.buf v = b
    · subst heq
      have hmem : v ∈ s.group sources (s.buf v) := mem_group.mpr ⟨hv, rfl⟩
      rw [if_pos hmem] at hold
      simp only [Buffers.drop, update_self]
      omega
    · have hmem : v ∉ s.group sources b := fun hmem =>
        heq (mem_group.mp hmem).2
      rw [if_neg hmem] at hold
      simp only [Buffers.drop, update_of_ne (Ne.symm heq)]
      exact hold
  have hpos : 0 < rem v := by rw [hrem v, if_pos rfl]; omega
  constructor
  · exact h.nodup
  · intro x hwrite hx
    have hne : x ≠ s.buf v := fun heq => hx (heq ▸ hroot)
    have hxv : x ≠ v := fun heq => hx (heq ▸ hv)
    have hown := h.own x hwrite hx
    rw [hrem x, if_neg hxv] at hown
    simp only [Buffers.drop, update_of_ne hne]
    exact hown
  · exact h.root
  · exact htotal
  · simp only [Buffers.drop]
    split
    · exact nodup_cons.mpr ⟨h.not_mem_free hv hpos, h.free_nodup⟩
    · exact h.free_nodup
  · intro b hb
    have hb : b = s.buf v ∧ s.count (s.buf v) - 1 = 0 ∨ b ∈ s.free := by
      simp only [Buffers.drop] at hb
      split at hb
      · rename_i hzero
        exact (mem_cons.mp hb).imp_left fun heq => ⟨heq, hzero⟩
      · exact .inr hb
    rcases hb with ⟨rfl, hzero⟩ | hb
    · refine ⟨hroot, hbuf, ?_⟩
      simp only [Buffers.drop, update_self]
      exact hzero
    · obtain ⟨hdefined, hbroot, hbzero⟩ := h.free_root b hb
      refine ⟨hdefined, hbroot, ?_⟩
      have hne : b ≠ s.buf v := fun heq =>
        h.not_mem_free hv hpos (heq ▸ hb)
      simp only [Buffers.drop, update_of_ne hne]
      exact hbzero

end

variable {same : V → V → Prop}

section

variable (h : Separated same sources need s)
include h

/-- Nothing is lost when values are needed less. -/
theorem Separated.mono {need' : V → Nat} (hle : ∀ v, need' v ≤ need v) :
    Separated same sources need' s where
  live v hv w hw hbuf hneedv hneedw := h.live v hv w hw hbuf
    (Nat.lt_of_lt_of_le hneedv (hle v)) (Nat.lt_of_lt_of_le hneedw (hle w))
  since v hv hneed :=
    h.since v hv (Nat.lt_of_lt_of_le hneed (hle v))

/-- Only buffers and writes matter. -/
theorem Separated.congr (hbuf : s'.buf = s.buf) (hlog : s'.log = s.log) :
    Separated same sources need s' := by
  have hdefined : s'.defined sources = s.defined sources := by
    rw [defined, defined, hlog]
  constructor
  · rw [hdefined, hbuf]
    exact h.live
  · rw [hdefined, hbuf, hlog]
    exact h.since

/-- A value is written: whoever is still needed in the buffer it goes to has
the same content. -/
theorem Separated.write (hsame : Equivalence same) (hv : v ∉ s.defined sources)
    (hlog : s'.log = v :: s.log)
    (hbuf : ∀ u ∈ s.defined sources, s'.buf u = s.buf u)
    (hshared : ∀ u ∈ s.defined sources, s.buf u = s'.buf v → 0 < need u →
      same u v) : Separated same sources need s' := by
  have hdefined : s'.defined sources = v :: s.defined sources := by
    rw [defined, hlog]
    rfl
  constructor
  · intro x hx y hy heq hneedx hneedy
    rw [hdefined, mem_cons] at hx hy
    rcases hx with rfl | hx
    · rcases hy with rfl | hy
      · exact hsame.refl y
      · rw [hbuf y hy] at heq
        exact hsame.symm (hshared y hy heq.symm hneedy)
    · rw [hbuf x hx] at heq
      rcases hy with rfl | hy
      · exact hshared x hx heq hneedx
      · rw [hbuf y hy] at heq
        exact h.live x hx y hy heq hneedx hneedy
  · intro x hx hneed w hw heq
    rw [hlog] at hw
    rw [hdefined, mem_cons] at hx
    rcases hx with rfl | hx
    · simp at hw
    · have hne : v ≠ x := fun heq => hv (heq ▸ hx)
      rw [takeWhile_cons_of_pos (by simpa using hne), mem_cons] at hw
      rw [hbuf x hx] at heq
      rcases hw with rfl | hw
      · exact hshared x hx heq.symm hneed
      · have hdefw : w ∈ s.defined sources :=
          mem_append_left _ ((takeWhile_subset _) hw)
        rw [hbuf w hdefw] at heq
        exact h.since x hx hneed w hw heq

end

/-- The state while the outputs of a step are written.  `rem` counts the reads
of the step, `need` does not; `open_` are the read values an output may be
attached to as an alias. -/
structure Writing (same : V → V → Prop) (sources : List V)
    (writable : V → Prop) (rem need : V → Nat) (open_ : List V)
    (s : Buffers V) : Prop where
  accounted : Accounted sources writable rem s
  separated : Separated same sources need s
  open_defined : ∀ w ∈ open_, w ∈ s.defined sources ∧ 0 < rem w
  aliasable : ∀ w ∈ open_, ∀ u ∈ s.defined sources, s.buf u = s.buf w →
    0 < need u → same u w
  agree : ∀ w ∈ open_, ∀ x ∈ open_, s.buf w = s.buf x → same w x

variable {open_ : List V}

section

variable (h : Writing same sources writable rem need open_ s)
    (hsame : Equivalence same) (hwritable : writable v)
    (hv : v ∉ s.defined sources)
include h hsame hwritable hv

theorem Writing.fresh :
    Writing same sources writable rem need open_ (s.fresh v) := by
  have hown : s.buf v = v := (h.accounted.own v hwritable hv).1
  constructor
  · exact h.accounted.fresh hwritable hv
  · refine h.separated.write hsame hv rfl (fun _ _ => rfl) ?_
    intro u hu heq
    exact absurd (heq.trans hown) (h.accounted.buf_ne_of_not_mem hv hu)
  · intro w hw
    exact ⟨mem_cons_of_mem _ (h.open_defined w hw).1, (h.open_defined w hw).2⟩
  · intro w hw u hu heq hneed
    have hwdef := (h.open_defined w hw).1
    rcases mem_cons.mp hu with rfl | hu
    · exact absurd (heq.symm.trans hown)
        (h.accounted.buf_ne_of_not_mem hv hwdef)
    · exact h.aliasable w hw u hu heq hneed
  · exact h.agree

/-- An output is attached to a buffer: the values still needed there have its
content, and so have the open values there. -/
theorem Writing.attach (hw : w ∈ s.defined sources) (hfree : s.buf w ∉ s.free)
    (hneeded : ∀ u ∈ s.defined sources, s.buf u = s.buf w → 0 < need u →
      same u v) (hopen : ∀ x ∈ open_, s.buf x = s.buf w → same v x) :
    Writing same sources writable rem need open_ (s.attach v w) := by
  have hnew : (s.attach v w).buf v = s.buf w := by simp [Buffers.attach]
  have hold : ∀ u ∈ s.defined sources, (s.attach v w).buf u = s.buf u := by
    intro u hu
    have hne : u ≠ v := fun heq => hv (heq ▸ hu)
    simp [Buffers.attach, hne]
  constructor
  · exact h.accounted.attach hwritable hv hw hfree
  · refine h.separated.write hsame hv rfl hold ?_
    rw [hnew]
    exact hneeded
  · intro x hx
    exact ⟨mem_cons_of_mem _ (h.open_defined x hx).1, (h.open_defined x hx).2⟩
  · intro x hx u hu heq hneed
    have hxdef := (h.open_defined x hx).1
    rw [hold x hxdef] at heq
    rcases mem_cons.mp hu with rfl | hu
    · rw [hnew] at heq
      exact hopen x hx heq.symm
    · rw [hold u hu] at heq
      exact h.aliasable x hx u hu heq hneed
  · intro x hx y hy heq
    rw [hold x (h.open_defined x hx).1, hold y (h.open_defined y hy).1] at heq
    exact h.agree x hx y hy heq

/-- An alias goes to the buffer of an open value. -/
theorem Writing.share (hw : w ∈ open_) (halias : same w v) :
    Writing same sources writable rem need open_ (s.attach v w) := by
  obtain ⟨hdefined, hrem⟩ := h.open_defined w hw
  refine h.attach hsame hwritable hv hdefined
    (h.accounted.not_mem_free hdefined hrem) ?_ ?_
  · intro u hu heq hneed
    exact hsame.trans (h.aliasable w hw u hu heq hneed) halias
  · intro x hx heq
    exact hsame.trans (hsame.symm halias) (h.agree w hw x hx heq.symm)

/-- An in-place output goes to a buffer that is used once more, by this very
step, and that no alias of the step may use. -/
theorem Writing.overwrite (hw : w ∈ s.defined sources) (hread : need w < rem w)
    (hle : ∀ u, need u ≤ rem u) (hcount : s.count (s.buf w) = 1)
    (hopen : ∀ x ∈ open_, s.buf x ≠ s.buf w) :
    Writing same sources writable rem need open_ (s.attach v w) := by
  have hremw := h.accounted.rem_le_count hw
  refine h.attach hsame hwritable hv hw
    (h.accounted.not_mem_free hw (by omega)) ?_ ?_
  · intro u hu heq hneed
    exfalso
    by_cases hsameValue : u = w
    · subst hsameValue
      omega
    · have hboth := h.accounted.add_le_count hu hw hsameValue heq
      have hleu := hle u
      omega
  · intro x hx heq
    exact absurd heq (hopen x hx)

theorem Writing.recycle (hb : b ∈ s.free) (hle : ∀ u, need u ≤ rem u) :
    Writing same sources writable rem need open_ (s.recycle v b) := by
  obtain ⟨hdefined, hroot, hzero⟩ := h.accounted.free_root b hb
  have herased : Writing same sources writable rem need open_
      { s with free := s.free.erase b } :=
    { h with
      accounted := h.accounted.erase_free b
      separated := h.separated.congr rfl rfl }
  have hunused : ∀ u ∈ s.defined sources, s.buf u = s.buf b → rem u = 0 := by
    intro u hu heq
    apply h.accounted.rem_eq_zero hu
    rw [heq, hroot]
    exact hzero
  refine herased.attach hsame hwritable hv hdefined ?_ ?_ ?_
  · rw [hroot]
    exact h.accounted.free_nodup.not_mem_erase
  · intro u hu heq hneed
    have hleu := hle u
    rw [hunused u hu heq] at hleu
    omega
  · intro x hx heq
    obtain ⟨hxdef, hrem⟩ := h.open_defined x hx
    rw [hunused x hxdef heq] at hrem
    omega

end

/-- Between two steps: the remaining uses of a value are the permanent ones
and those still pending. -/
structure Settled (same : V → V → Prop) (sources : List V)
    (writable : V → Prop) (perm : V → Nat) (pending : List V)
    (s : Buffers V) : Prop where
  accounted : Accounted sources writable (fun v => perm v + pending.count v) s
  separated : Separated same sources (fun v => perm v + pending.count v) s

variable {perm : V → Nat} {reads rest : List V}

/-- At the start every value has a buffer of its own. -/
theorem Settled.init (hsame : Equivalence same) (hnodup : sources.Nodup)
    {pending : List V}
    (hown : ∀ v, v ∈ sources ∨ writable v →
      s.buf v = v ∧ s.count v = ((perm v + pending.count v : Nat) : Int))
    (hfree : s.free = []) (hlog : s.log = []) :
    Settled same sources writable perm pending s := by
  have hdefined : s.defined sources = sources := by
    rw [defined, hlog, nil_append]
  have hbuf : ∀ v ∈ sources, s.buf v = v := fun v hv => (hown v (.inl hv)).1
  have hgroup : ∀ b ∈ sources, s.group sources b = [b] := by
    intro b hb
    rw [group, hdefined, filter_congr (q := fun v => v == b)
      (fun v hv => by rw [hbuf v hv, Bool.beq_eq_decide_eq]), filter_beq,
      count_eq_one_of_mem hnodup hb, replicate_one]
  constructor
  · constructor
    · rw [hdefined]
      exact hnodup
    · intro v hwrite _
      exact hown v (.inr hwrite)
    · rw [hdefined]
      intro v hv
      rw [hbuf v hv]
      exact ⟨hv, hbuf v hv⟩
    · rw [hdefined]
      intro b hb _
      rw [hgroup b hb, map_singleton]
      exact (hown b (.inl hb)).2
    · rw [hfree]
      exact nodup_nil
    · rw [hfree]
      simp
  · constructor
    · rw [hdefined]
      intro v hv w hw heq _ _
      rw [hbuf v hv, hbuf w hw] at heq
      rw [heq]
      exact hsame.refl w
    · rw [hlog]
      simp

theorem Settled.writing (h : Settled same sources writable perm (reads ++ rest) s)
    (hreads : ∀ v ∈ reads, v ∈ s.defined sources) (hopen : open_ ⊆ reads) :
    Writing same sources writable (fun v => perm v + (reads ++ rest).count v)
      (fun v => perm v + rest.count v) open_ s := by
  have hle : ∀ v, perm v + rest.count v ≤ perm v + (reads ++ rest).count v := by
    intro v
    rw [count_append]
    omega
  have hpos : ∀ v ∈ reads, 0 < perm v + (reads ++ rest).count v := by
    intro v hv
    have hcount := count_pos_iff.mpr hv
    rw [count_append]
    omega
  constructor
  · exact h.accounted
  · exact h.separated.mono hle
  · intro w hw
    exact ⟨hreads w (hopen hw), hpos w (hopen hw)⟩
  · intro w hw u hu heq hneed
    exact h.separated.live u hu w (hreads w (hopen hw)) heq
      (Nat.lt_of_lt_of_le hneed (hle u)) (hpos w (hopen hw))
  · intro w hw x hx heq
    exact h.separated.live w (hreads w (hopen hw)) x (hreads x (hopen hx)) heq
      (hpos w (hopen hw)) (hpos x (hopen hx))

/-- Dropping all uses of a list. -/
theorem Accounted.foldl_drop {used : List V}
    (h : Accounted sources writable (fun v => perm v + (used ++ rest).count v) s)
    (hused : ∀ v ∈ used, v ∈ s.defined sources) :
    Accounted sources writable (fun v => perm v + rest.count v)
      (used.foldl Buffers.drop s) := by
  induction used generalizing s with
  | nil => exact h
  | cons v used ih =>
    apply ih
    · refine h.drop (hused v mem_cons_self) fun x => ?_
      simp only [cons_append, count_cons]
      by_cases heq : x = v
      · simp [heq]
        omega
      · simp [heq, Ne.symm heq]
    · intro w hw
      exact hused w (mem_cons_of_mem _ hw)

theorem foldl_drop_buf (used : List V) : (used.foldl drop s).buf = s.buf := by
  induction used generalizing s with
  | nil => rfl
  | cons v used ih => exact ih

theorem foldl_drop_log (used : List V) : (used.foldl drop s).log = s.log := by
  induction used generalizing s with
  | nil => rfl
  | cons v used ih => exact ih

/-- The end of a step: its reads and then its outputs are dropped. -/
theorem Writing.settled {writes : List V}
    (h : Writing same sources writable
      (fun v => perm v + (reads ++ (writes ++ rest)).count v)
      (fun v => perm v + (writes ++ rest).count v) open_ s)
    (hdefined : ∀ v ∈ reads ++ writes, v ∈ s.defined sources) :
    Settled same sources writable perm rest ((reads ++ writes).foldl drop s) := by
  constructor
  · apply Accounted.foldl_drop _ hdefined
    simpa only [append_assoc] using h.accounted
  · refine (h.separated.mono fun v => ?_).congr (foldl_drop_buf _)
      (foldl_drop_log _)
    rw [count_append]
    omega

end Buffers

end OnnxRuntime
