import Qrtb.Lib.Contract
import Qrtb.Lib.OrderedDict

/-!
# Loops over the objects of a dictionary

A program that keeps its objects in a dictionary calls a method on one of them, on
each in turn, or on each in turn until one of the calls has a result. An exception
stops the loop and the objects before it keep what was done to them. What a loop
does to all objects follows from what the method does to one.
-/

namespace OrderedDict

open Stateful

variable {κ ν α : Type}

/-- One item after the other, up to the first exception or the first result that stops the loop. -/
def loopItems (stop : α → Bool) (f : κ → Stateful ν α) : Stateful (List (κ × ν)) (List (κ × α))
  | [] => (.ok [], [])
  | (k, v) :: ps =>
    match f k v with
    | (.error e, v') => (.error e, (k, v') :: ps)
    | (.ok a, v') =>
      if stop a then (.ok [(k, a)], (k, v') :: ps)
      else ((loopItems stop f ps).1.map ((k, a) :: ·), (k, v') :: (loopItems stop f ps).2)

section

variable {stop : α → Bool} {f : κ → Stateful ν α} {k : κ} {v : ν}

theorem loopItems_of_error {e : PyError} (h : (f k v).1 = .error e) (ps : List (κ × ν)) :
    loopItems stop f ((k, v) :: ps) = (.error e, (k, (f k v).2) :: ps) := by
  rw [loopItems, show f k v = (.error e, (f k v).2) from Prod.ext h rfl]

theorem loopItems_of_stop {a : α} (h : (f k v).1 = .ok a) (hstop : stop a = true)
    (ps : List (κ × ν)) :
    loopItems stop f ((k, v) :: ps) = (.ok [(k, a)], (k, (f k v).2) :: ps) := by
  rw [loopItems, show f k v = (.ok a, (f k v).2) from Prod.ext h rfl]
  simp [hstop]

theorem loopItems_of_ok {a : α} (h : (f k v).1 = .ok a) (hstop : stop a = false)
    (ps : List (κ × ν)) :
    loopItems stop f ((k, v) :: ps) =
      ((loopItems stop f ps).1.map ((k, a) :: ·), (k, (f k v).2) :: (loopItems stop f ps).2) := by
  rw [loopItems, show f k v = (.ok a, (f k v).2) from Prod.ext h rfl]
  simp [hstop]

theorem loopItems_cons_cases {ps : List (κ × ν)} {rs : List (κ × α)}
    (h : (loopItems stop f ((k, v) :: ps)).1 = .ok rs) :
    ∃ a, (f k v).1 = .ok a ∧
      ((stop a = true ∧ rs = [(k, a)] ∧
          (loopItems stop f ((k, v) :: ps)).2 = (k, (f k v).2) :: ps) ∨
        (stop a = false ∧ ∃ rest, (loopItems stop f ps).1 = .ok rest ∧ rs = (k, a) :: rest ∧
          (loopItems stop f ((k, v) :: ps)).2 = (k, (f k v).2) :: (loopItems stop f ps).2)) := by
  cases ha : (f k v).1 with
  | error e =>
    rw [loopItems_of_error ha] at h
    cases h
  | ok a =>
    refine ⟨a, rfl, ?_⟩
    cases hstop : stop a with
    | true =>
      rw [loopItems_of_stop ha hstop] at h ⊢
      exact Or.inl ⟨rfl, (Except.ok.inj h).symm, rfl⟩
    | false =>
      rw [loopItems_of_ok ha hstop] at h ⊢
      obtain ⟨rest, hrest, rfl⟩ := Except.map_eq_ok.mp h
      exact Or.inr ⟨rfl, rest, hrest, rfl, rfl⟩

end

theorem map_fst_loopItems (stop : α → Bool) (f : κ → Stateful ν α) (ps : List (κ × ν)) :
    (loopItems stop f ps).2.map Prod.fst = ps.map Prod.fst := by
  induction ps with
  | nil => rfl
  | cons p ps ih =>
    obtain ⟨k, v⟩ := p
    cases h : (f k v).1 with
    | error e => rw [loopItems_of_error h, List.map_cons, List.map_cons]
    | ok a =>
      cases hstop : stop a with
      | false => rw [loopItems_of_ok h hstop, List.map_cons, List.map_cons, ih]
      | true => rw [loopItems_of_stop h hstop, List.map_cons, List.map_cons]

def loopValues (stop : α → Bool) (f : κ → Stateful ν α) :
    Stateful (OrderedDict κ ν) (List (κ × α)) := fun d =>
  ((loopItems stop f d.items).1,
    ⟨(loopItems stop f d.items).2, by
      rw [map_fst_loopItems]
      exact d.nodup⟩)

/-- `for object in objects.values(): ...`, with what the body collects. -/
def forValues (f : κ → Stateful ν α) : Stateful (OrderedDict κ ν) (List α) := do
  let results ← loopValues (fun _ => false) f
  return results.map Prod.snd

/-- The same loop with a `break` at the first result. -/
def firstValue (f : κ → Stateful ν (Option α)) : Stateful (OrderedDict κ ν) (Option (κ × α)) := do
  let results ← loopValues Option.isSome f
  return results.getLast?.bind fun r => r.2.map fun a => (r.1, a)

/-- A method of the object under a key; without one there is no call. -/
def call [DecidableEq κ] (k : κ) (x : Stateful ν α) : Stateful (OrderedDict κ ν) (Option α) :=
  fun d =>
    match d.get? k with
    | none => (.ok none, d)
    | some v => ((x v).1.map some, d.set k (x v).2)

/-- The keys, and a property that every object has under its key. -/
structure Populated (ks : List κ) (P : κ → ν → Prop) (d : OrderedDict κ ν) : Prop where
  keys : d.keys = ks
  each : ∀ p ∈ d.items, P p.1 p.2

variable {ks : List κ} {P Q : κ → ν → Prop} {d : OrderedDict κ ν} {fits : Prop}

theorem loopItems_each {stop : α → Bool} {f : κ → Stateful ν α}
    (h : ∀ k, Preserves (P k) (f k)) {ps : List (κ × ν)} (hps : ∀ p ∈ ps, P p.1 p.2) :
    ∀ p ∈ (loopItems stop f ps).2, P p.1 p.2 := by
  induction ps with
  | nil => exact hps
  | cons p ps ih =>
    obtain ⟨k, v⟩ := p
    rw [List.forall_mem_cons] at hps
    have hv := h k v hps.1
    cases hr : (f k v).1 with
    | error e =>
      rw [loopItems_of_error hr]
      exact List.forall_mem_cons.mpr ⟨hv, hps.2⟩
    | ok a =>
      cases hstop : stop a with
      | false =>
        rw [loopItems_of_ok hr hstop]
        exact List.forall_mem_cons.mpr ⟨hv, ih hps.2⟩
      | true =>
        rw [loopItems_of_stop hr hstop]
        exact List.forall_mem_cons.mpr ⟨hv, hps.2⟩

theorem preserves_loopValues {stop : α → Bool} {f : κ → Stateful ν α}
    (h : ∀ k, Preserves (P k) (f k)) : Preserves (Populated ks P) (loopValues stop f) := by
  intro d hd
  exact ⟨(map_fst_loopItems stop f d.items).trans hd.keys, loopItems_each h hd.each⟩

theorem preserves_forValues {f : κ → Stateful ν α} (h : ∀ k, Preserves (P k) (f k)) :
    Preserves (Populated ks P) (forValues f) :=
  (preserves_loopValues h).bind fun _ => preserves_pure _

theorem preserves_firstValue {f : κ → Stateful ν (Option α)} (h : ∀ k, Preserves (P k) (f k)) :
    Preserves (Populated ks P) (firstValue f) :=
  (preserves_loopValues h).bind fun _ => preserves_pure _

theorem Populated.set [DecidableEq κ] (hd : Populated ks P d) {k : κ} {v : ν} (hk : k ∈ ks)
    (hv : P k v) : Populated ks P (d.set k v) := by
  constructor
  · have hmem : k ∈ d.keys := by rwa [hd.keys]
    rw [keys_set, if_pos hmem, hd.keys]
  · intro p hp
    rcases get?_set_eq_some.mp ((mem_items_iff _ p.1 p.2).mp hp) with ⟨hkey, hval⟩ | ⟨-, hget⟩
    · rwa [hkey, hval]
    · exact hd.each p ((mem_items_iff _ p.1 p.2).mpr hget)

theorem Populated.get? [DecidableEq κ] (hd : Populated ks P d) {k : κ} {v : ν}
    (h : d.get? k = some v) : k ∈ ks ∧ P k v := by
  constructor
  · rw [← hd.keys, mem_keys_iff]
    exact ⟨v, h⟩
  · exact hd.each (k, v) ((mem_items_iff d k v).mpr h)

theorem preserves_call [DecidableEq κ] {k : κ} {x : Stateful ν α} (h : Preserves (P k) x) :
    Preserves (Populated ks P) (call k x) := by
  intro d hd
  rw [call]
  split
  next => exact hd
  next v hget =>
    obtain ⟨hk, hv⟩ := hd.get? hget
    exact hd.set hk (h v hv)

/-- A relation of dictionaries that holds between them before and after each single call holds
before and after the loop. -/
theorem loopValues_induction [DecidableEq κ] {R : OrderedDict κ ν → OrderedDict κ ν → Prop}
    {stop : α → Bool} {f : κ → Stateful ν α} (hrefl : ∀ d, R d d)
    (htrans : ∀ d e g, R d e → R e g → R d g)
    (hcall : ∀ d k v, d.get? k = some v → R d (d.set k (f k v).2)) (d : OrderedDict κ ν) :
    R d (loopValues stop f d).2 := by
  suffices hloop : ∀ (ps pre : List (κ × ν)) (d e : OrderedDict κ ν), d.items = pre ++ ps →
      e.items = pre ++ (loopItems stop f ps).2 → R d e from hloop d.items [] d _ rfl rfl
  intro ps
  induction ps with
  | nil =>
    intro pre d e hd he
    obtain rfl : d = e := eq_of_items (hd.trans he.symm)
    exact hrefl d
  | cons p ps ih =>
    obtain ⟨k, v⟩ := p
    intro pre d e hd he
    have hget : d.get? k = some v := by
      rw [← mem_items_iff, hd]
      exact List.mem_append_right _ List.mem_cons_self
    have hset : (d.set k (f k v).2).items = pre ++ (k, (f k v).2) :: ps :=
      items_set_of_items hd _
    have hfirst := hcall d k v hget
    cases ha : (f k v).1 with
    | error e' =>
      rw [loopItems_of_error ha] at he
      obtain rfl : d.set k (f k v).2 = e := eq_of_items (hset.trans he.symm)
      exact hfirst
    | ok a =>
      cases hstop : stop a with
      | true =>
        rw [loopItems_of_stop ha hstop] at he
        obtain rfl : d.set k (f k v).2 = e := eq_of_items (hset.trans he.symm)
        exact hfirst
      | false =>
        rw [loopItems_of_ok ha hstop] at he
        refine htrans _ _ _ hfirst (ih (pre ++ [(k, (f k v).2)]) _ e ?_ ?_)
        · simpa using hset
        · simpa using he

theorem forValues_induction [DecidableEq κ] {R : OrderedDict κ ν → OrderedDict κ ν → Prop}
    {f : κ → Stateful ν α} (hrefl : ∀ d, R d d) (htrans : ∀ d e g, R d e → R e g → R d g)
    (hcall : ∀ d k v, d.get? k = some v → R d (d.set k (f k v).2)) (d : OrderedDict κ ν) :
    R d (forValues f d).2 := by
  rw [forValues, snd_bind_pure]
  exact loopValues_induction hrefl htrans hcall d

theorem snd_loopItems_cons (stop : α → Bool) (f : κ → Stateful ν α) (k : κ) (v : ν)
    (ps : List (κ × ν)) : ∃ rest, (loopItems stop f ((k, v) :: ps)).2 = (k, (f k v).2) :: rest ∧
      (rest = ps ∨ rest = (loopItems stop f ps).2) := by
  cases ha : (f k v).1 with
  | error e =>
    rw [loopItems_of_error ha]
    exact ⟨ps, rfl, Or.inl rfl⟩
  | ok a =>
    cases hstop : stop a with
    | true =>
      rw [loopItems_of_stop ha hstop]
      exact ⟨ps, rfl, Or.inl rfl⟩
    | false =>
      rw [loopItems_of_ok ha hstop]
      exact ⟨_, rfl, Or.inr rfl⟩

/-- A loop over all objects comes to one that it makes progress with, when it is not stopped before
at one that it makes no progress with. -/
theorem lt_sum_forValues {f : κ → Stateful ν α} {g : ν → ℕ} {B : ν → Prop}
    (hle : ∀ k v, g v ≤ g (f k v).2) (hidle : ∀ k v, ¬ B v → ∃ a, (f k v).1 = .ok a)
    (hbusy : ∀ k v, B v → g v < g (f k v).2) {d : OrderedDict κ ν}
    (h : ∃ v ∈ d.values, B v) :
    (d.values.map g).sum < ((forValues f d).2.values.map g).sum := by
  have hvalues : (forValues f d).2.values =
      (loopItems (fun _ => false) f d.items).2.map Prod.snd := by
    rw [forValues, snd_bind_pure]
    rfl
  rw [hvalues]
  rw [values] at h ⊢
  generalize d.items = ps at h
  have hge : ∀ ps : List (κ × ν), ((ps.map Prod.snd).map g).sum ≤
      (((loopItems (fun _ => false) f ps).2.map Prod.snd).map g).sum := by
    intro ps
    induction ps with
    | nil => exact le_rfl
    | cons p ps ih =>
      obtain ⟨rest, hloop, hrest⟩ := snd_loopItems_cons (fun _ => false) f p.1 p.2 ps
      have hv := hle p.1 p.2
      rw [hloop]
      simp only [List.map_cons, List.sum_cons]
      rcases hrest with rfl | rfl
      · omega
      · omega
  induction ps with
  | nil => exact absurd h (by simp)
  | cons p ps ih =>
    obtain ⟨k, v⟩ := p
    by_cases hv : B v
    · obtain ⟨rest, hloop, hrest⟩ := snd_loopItems_cons (fun _ => false) f k v ps
      have hlt := hbusy k v hv
      have hps := hge ps
      rw [hloop]
      simp only [List.map_cons, List.sum_cons]
      rcases hrest with rfl | rfl
      · omega
      · omega
    · obtain ⟨a, ha⟩ := hidle k v hv
      have hkeep := hle k v
      have hrest := ih (by simpa [hv] using h)
      rw [loopItems_of_ok ha rfl]
      simp only [List.map_cons, List.sum_cons]
      omega

theorem contract_loopItems {f : κ → Stateful ν α} {R : κ → α → Prop}
    (h : ∀ k ∈ ks, Contract fits (P k) (f k) fun a v => R k a ∧ Q k v) :
    Contract fits (fun ps => ps.map Prod.fst = ks ∧ ∀ p ∈ ps, P p.1 p.2)
      (loopItems (fun _ => false) f)
      fun rs ps => List.Forall₂ R ks (rs.map Prod.snd) ∧ ∀ p ∈ ps, Q p.1 p.2 := by
  rintro ps ⟨rfl, hps⟩
  induction ps with
  | nil =>
    refine ⟨fun _ => ⟨[], rfl⟩, ?_⟩
    intro rs hrs
    obtain rfl := Except.ok.inj hrs
    exact ⟨.nil, List.forall_mem_nil _⟩
  | cons p ps ih =>
    obtain ⟨k, v⟩ := p
    rw [List.map_cons, List.forall_mem_cons] at h
    rw [List.forall_mem_cons] at hps
    obtain ⟨hreturns, hpost⟩ := h.1 v hps.1
    obtain ⟨ihreturns, ihpost⟩ := ih hps.2 h.2
    constructor
    · intro hfits
      obtain ⟨a, ha⟩ := hreturns hfits
      obtain ⟨rs, hrs⟩ := ihreturns hfits
      refine ⟨(k, a) :: rs, ?_⟩
      rw [loopItems_of_ok ha rfl, hrs]
      rfl
    · intro rs hrs
      obtain ⟨a, ha, ⟨hstop, -⟩ | ⟨-, rest, hrest, rfl, hloop⟩⟩ := loopItems_cons_cases hrs
      · cases hstop
      · obtain ⟨hresults, hobjects⟩ := ihpost rest hrest
        obtain ⟨hresult, hobject⟩ := hpost a ha
        rw [hloop]
        exact ⟨.cons hresult hresults, List.forall_mem_cons.mpr ⟨hobject, hobjects⟩⟩

theorem contract_forValues {f : κ → Stateful ν α} {R : κ → α → Prop}
    (h : ∀ k ∈ ks, Contract fits (P k) (f k) fun a v => R k a ∧ Q k v) :
    Contract fits (Populated ks P) (forValues f)
      fun as d => List.Forall₂ R ks as ∧ Populated ks Q d := by
  have hloop : Contract fits (Populated ks P) (loopValues (fun _ => false) f)
      fun rs d => List.Forall₂ R ks (rs.map Prod.snd) ∧ Populated ks Q d := by
    intro d hd
    obtain ⟨hreturns, hpost⟩ := contract_loopItems h d.items ⟨hd.keys, hd.each⟩
    refine ⟨hreturns, ?_⟩
    intro rs hrs
    obtain ⟨hresults, hobjects⟩ := hpost rs hrs
    exact ⟨hresults, (map_fst_loopItems _ f d.items).trans hd.keys, hobjects⟩
  exact hloop.bind fun rs => contract_pure fun d hd => hd

theorem contract_firstItem {f : κ → Stateful ν (Option α)} {k₀ : κ} {Q : α → κ → ν → Prop}
    {pre post : List κ}
    (hbefore : ∀ k ∈ pre, Contract fits (P k) (f k) fun a v => a = none ∧ P k v)
    (hfound : Contract fits (P k₀) (f k₀) fun a v => ∃ b, a = some b ∧ Q b k₀ v)
    (hPQ : ∀ b v, Q b k₀ v → ∀ k w, k ≠ k₀ → P k w → Q b k w)
    (hnodup : (pre ++ k₀ :: post).Nodup) :
    Contract fits (fun ps => ps.map Prod.fst = pre ++ k₀ :: post ∧ ∀ p ∈ ps, P p.1 p.2)
      (loopItems Option.isSome f)
      fun rs ps => ∃ b, (rs.getLast? = some (k₀, some b) ∧ ∃ v, Q b k₀ v) ∧
        ∀ p ∈ ps, Q b p.1 p.2 := by
  rintro ps ⟨hkeys, hps⟩
  induction pre generalizing ps with
  | nil =>
    obtain ⟨⟨k, v⟩, ps, rfl, rfl, htail⟩ := List.map_eq_cons_iff.mp hkeys
    rw [List.forall_mem_cons] at hps
    obtain ⟨hreturns, hresult⟩ := hfound v hps.1
    refine ⟨?_, ?_⟩
    · intro hfits
      obtain ⟨a, ha⟩ := hreturns hfits
      obtain ⟨b, rfl, -⟩ := hresult a ha
      exact ⟨_, by rw [loopItems_of_stop ha rfl]⟩
    · intro rs hrs
      obtain ⟨a, ha, ⟨-, rfl, hloop⟩ | ⟨hstop, -⟩⟩ := loopItems_cons_cases hrs
      · obtain ⟨b, rfl, hv⟩ := hresult a ha
        rw [hloop]
        refine ⟨b, ⟨rfl, _, hv⟩, List.forall_mem_cons.mpr ⟨hv, ?_⟩⟩
        intro p hp
        refine hPQ b _ hv p.1 p.2 ?_ (hps.2 p hp)
        intro hk
        refine (List.nodup_cons.mp hnodup).1 ?_
        rw [← htail, ← hk]
        exact List.mem_map_of_mem hp
      · obtain ⟨b, rfl, -⟩ := hresult a ha
        cases hstop
  | cons k pre ih =>
    obtain ⟨⟨k, v⟩, ps, rfl, rfl, htail⟩ := List.map_eq_cons_iff.mp hkeys
    rw [List.forall_mem_cons] at hps
    rw [List.cons_append, List.nodup_cons] at hnodup
    obtain ⟨hreturns, hresult⟩ := hbefore k List.mem_cons_self v hps.1
    obtain ⟨ihreturns, ihresult⟩ :=
      ih (fun k hk => hbefore k (List.mem_cons_of_mem _ hk)) hnodup.2 ps htail hps.2
    refine ⟨?_, ?_⟩
    · intro hfits
      obtain ⟨a, ha⟩ := hreturns hfits
      obtain ⟨rfl, -⟩ := hresult a ha
      obtain ⟨rs, hrs⟩ := ihreturns hfits
      exact ⟨(k, none) :: rs, by rw [loopItems_of_ok ha rfl, hrs]; rfl⟩
    · intro rs hrs
      obtain ⟨a, ha, ⟨hstop, -⟩ | ⟨-, rest, hrest, rfl, hloop⟩⟩ := loopItems_cons_cases hrs
      · obtain ⟨rfl, -⟩ := hresult a ha
        cases hstop
      · obtain ⟨rfl, hv⟩ := hresult a ha
        obtain ⟨b, ⟨hlast, w, hw⟩, hobjects⟩ := ihresult rest hrest
        have hne : k ≠ k₀ := by
          rintro rfl
          exact hnodup.1 (List.mem_append_right _ List.mem_cons_self)
        rw [hloop]
        refine ⟨b, ⟨?_, w, hw⟩, List.forall_mem_cons.mpr ⟨hPQ b w hw k _ hne hv, hobjects⟩⟩
        rw [List.getLast?_cons, hlast]
        rfl

/-- The loop stops at the object that has a result when none before it has one. -/
theorem contract_firstValue {f : κ → Stateful ν (Option α)} {k₀ : κ} {Q : α → κ → ν → Prop}
    {pre post : List κ}
    (hbefore : ∀ k ∈ pre, Contract fits (P k) (f k) fun a v => a = none ∧ P k v)
    (hfound : Contract fits (P k₀) (f k₀) fun a v => ∃ b, a = some b ∧ Q b k₀ v)
    (hPQ : ∀ b v, Q b k₀ v → ∀ k w, k ≠ k₀ → P k w → Q b k w) :
    Contract fits (Populated (pre ++ k₀ :: post) P) (firstValue f)
      fun r d => ∃ b, (r = some (k₀, b) ∧ ∃ v, Q b k₀ v) ∧
        Populated (pre ++ k₀ :: post) (Q b) d := by
  have hloop : Contract fits (Populated (pre ++ k₀ :: post) P) (loopValues Option.isSome f)
      fun rs d => ∃ b, (rs.getLast? = some (k₀, some b) ∧ ∃ v, Q b k₀ v) ∧
        Populated (pre ++ k₀ :: post) (Q b) d := by
    intro d hd
    have hnodup : (pre ++ k₀ :: post).Nodup := by
      rw [← hd.keys]
      exact d.nodup
    obtain ⟨hreturns, hpost⟩ :=
      contract_firstItem hbefore hfound hPQ hnodup d.items ⟨hd.keys, hd.each⟩
    refine ⟨hreturns, ?_⟩
    intro rs hrs
    obtain ⟨b, hlast, hobjects⟩ := hpost rs hrs
    exact ⟨b, hlast, (map_fst_loopItems _ f d.items).trans hd.keys, hobjects⟩
  refine hloop.bind fun rs => contract_pure ?_
  rintro d ⟨b, ⟨hlast, hv⟩, hobjects⟩
  exact ⟨b, ⟨by rw [hlast]; rfl, hv⟩, hobjects⟩

theorem contract_firstValue_head {f : κ → Stateful ν (Option α)} {k₀ : κ} {rest : List κ}
    {R : α → Prop} (hfound : Contract fits (P k₀) (f k₀) fun a _ => ∃ b, a = some b ∧ R b) :
    Contract fits (Populated (k₀ :: rest) P) (firstValue f)
      fun r _ => ∃ b, r = some (k₀, b) ∧ R b := by
  have hfirst := @contract_firstValue κ ν α P fits f k₀ (fun b _ _ => R b) [] rest
    (List.forall_mem_nil _) hfound fun _ _ hb _ _ _ _ => hb
  refine hfirst.weaken ?_
  rintro r d ⟨b, ⟨hr, _, hb⟩, -⟩
  exact ⟨b, hr, hb⟩

theorem contract_call [DecidableEq κ] {k : κ} {x : Stateful ν α} {R : α → Prop}
    (hx : Contract fits (P k) x fun a v => R a ∧ P k v) :
    Contract fits (Populated ks P) (call k x)
      fun r d => (∀ a, r = some a → R a) ∧ Populated ks P d := by
  intro d hd
  rw [call]
  split
  next =>
    refine ⟨fun _ => ⟨none, rfl⟩, ?_⟩
    intro r hr
    obtain rfl := Except.ok.inj hr
    exact ⟨nofun, hd⟩
  next v hget =>
    obtain ⟨hk, hv⟩ := hd.get? hget
    obtain ⟨hreturns, hpost⟩ := hx v hv
    constructor
    · intro hfits
      obtain ⟨a, ha⟩ := hreturns hfits
      exact ⟨some a, by rw [ha]; rfl⟩
    · intro r hr
      obtain ⟨a, ha, rfl⟩ := Except.map_eq_ok.mp hr
      obtain ⟨hresult, hobject⟩ := hpost a ha
      refine ⟨?_, hd.set hk hobject⟩
      intro b hb
      rwa [← Option.some.inj hb]

end OrderedDict
