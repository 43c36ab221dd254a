import Repkgs.Jigd.LastPut
import Repkgs.Lib.MapSum

/-!
# The counters of the store

`total` of a tier and `live` of a pack are kept up to date piece by piece, where
records are written, packs are loaded and packs move. They stand for sums: the
sizes of the packs in the tier, and the lengths of the index entries that point
at the pack.
-/

namespace Repkgs.Jigd

open Lib

/-- The bytes of the packs in a tier. -/
def Core.tierSize (c : Core) (t : Nat) : Int :=
  Map.sum c.packs fun _ p => if p.tier = t then p.size else 0

/-- The bytes of the values the index has in a pack. -/
def liveBytes (index : Map Bytes Loc) (id : Nat) : Int :=
  Map.sum index fun _ l => if l.pack = id then l.len else 0

/-- The counters are what they stand for. -/
structure Core.Accounted (c : Core) : Prop where
  total : ∀ {t tier}, c.tiers[t]? = some tier → tier.total = c.tierSize t
  live : ∀ {id p}, c.packs.lookup id = some p → p.live = liveBytes c.index id
  owned : ∀ {key l}, c.index.lookup key = some l → (c.packs.lookup l.pack).isSome
  bounds : ∀ {id p}, c.packs.lookup id = some p → 0 ≤ p.live ∧ p.live ≤ p.size

/-- What a pack at a place adds to the total of tier `t`. -/
def contribution (q : Option Place) (t : Nat) : Int :=
  q.elim 0 fun q => if q.tier = t then q.size else 0

structure Totals (c : Core) : Prop where
  total : ∀ {t tier}, c.tiers[t]? = some tier → tier.total = c.tierSize t
  tier_lt : ∀ {id q}, c.place? id = some q → q.tier < c.tiers.length
  id_eq : ∀ {id q}, c.place? id = some q → q.id = id

variable {c c' : Core} {id n : Nat} {p : Pack} {e : Bytes × Loc} {es : List (Bytes × Loc)}
  {now : Int} {d : Disk} {io : OpenIO} {s : Store}

theorem tierSize_congr (h : ∀ id, c'.place? id = c.place? id) (t : Nat) :
    c'.tierSize t = c.tierSize t :=
  Map.sum_eq_of_lookup Pack.place h fun _ q => if q.tier = t then (q.size : Int) else 0

theorem part_packs (c : Core) (id t : Nat) :
    (Map.part c.packs id fun _ p => if p.tier = t then (p.size : Int) else 0) =
      contribution (c.place? id) t := by
  unfold Map.part contribution Core.place?
  cases c.packs.lookup id <;> rfl

/-- A pack that comes, goes or changes its place exchanges its contribution. -/
theorem tierSize_replace {q : Option Place}
    (h : ∀ i, c'.place? i = if i = id then q else c.place? i) (t : Nat) :
    c'.tierSize t + contribution (c.place? id) t = c.tierSize t + contribution q t := by
  cases q with
  | none =>
      have hgone : ∀ i, c'.place? i = Core.place? { c with packs := c.packs.erase id } i := by
        intro i
        rw [h]
        simp only [Core.place?, Map.lookup_erase_eq]
        split <;> rfl
      rw [tierSize_congr hgone, ← part_packs]
      exact (Map.sum_erase c.packs id _).trans (add_zero _).symm
  | some q =>
      let p : Pack := ⟨q.id, q.tier, q.size, 0, 0, 0⟩
      have hset : ∀ i, c'.place? i = Core.place? { c with packs := c.packs.insert id p } i := by
        intro i
        rw [h, place?_insert]
        rfl
      rw [tierSize_congr hset, ← part_packs]
      exact Map.sum_insert c.packs id p _

theorem getElem?_addTotal (tiers : List Tier) (t i : Nat) (n : Int) :
    (addTotal tiers t n)[i]? =
      tiers[i]?.map fun tier => { tier with total := tier.total + if i = t then n else 0 } := by
  rw [addTotal, List.getElem?_modify]
  by_cases h : t = i
  · subst h
    simp
  · have hne : i ≠ t := Ne.symm h
    simp [h, hne]

/-- The totals after a pack has come, gone or changed its place. -/
theorem Totals.replace {c c' : Core} (h : Totals c) {id : Nat} {q : Option Place}
    (hplace : ∀ i, c'.place? i = if i = id then q else c.place? i)
    (hq : ∀ r, q = some r → r.tier < c.tiers.length ∧ r.id = id)
    (hlen : c'.tiers.length = c.tiers.length)
    (htotal : ∀ t tier', c'.tiers[t]? = some tier' → ∃ tier, c.tiers[t]? = some tier ∧
      tier'.total + contribution (c.place? id) t = tier.total + contribution q t) :
    Totals c' := by
  refine ⟨?_, ?_, ?_⟩
  · intro t tier' htier'
    obtain ⟨tier, htier, heq⟩ := htotal t tier' htier'
    have hsum := tierSize_replace hplace t
    have hold := h.total htier
    omega
  · intro i r hr
    rw [hplace] at hr
    rw [hlen]
    split at hr
    · exact (hq r hr).1
    · exact h.tier_lt hr
  · intro i r hr
    rw [hplace] at hr
    split at hr
    · next heq => exact (hq r hr).2.trans heq.symm
    · exact h.id_eq hr

theorem Totals.congr (h : Totals c) (hplace : ∀ id, c'.place? id = c.place? id)
    (htiers : c'.tiers = c.tiers) : Totals c' := by
  refine ⟨?_, ?_, ?_⟩
  · intro t tier htier
    rw [tierSize_congr hplace]
    exact h.total (htiers ▸ htier)
  · intro id q hq
    rw [htiers]
    exact h.tier_lt (hplace id ▸ hq)
  · intro id q hq
    exact h.id_eq (hplace id ▸ hq)

structure Lives (c : Core) : Prop where
  live : ∀ {id p}, c.packs.lookup id = some p → p.live = liveBytes c.index id
  owned : ∀ {key l}, c.index.lookup key = some l → (c.packs.lookup l.pack).isSome

theorem liveBytes_nonneg (index : Map Bytes Loc) (id : Nat) : 0 ≤ liveBytes index id := by
  apply Map.sum_nonneg
  intro _ l
  split <;> omega

theorem Lives.congr (h : Lives c) (hindex : c'.index = c.index)
    (hlive : ∀ id, (c'.packs.lookup id).map Pack.live = (c.packs.lookup id).map Pack.live) :
    Lives c' := by
  refine ⟨?_, ?_⟩
  · intro id p hp
    have hlive' := hlive id
    rw [hp, Option.map_some, eq_comm, Option.map_eq_some_iff] at hlive'
    obtain ⟨p₀, hp₀, heq⟩ := hlive'
    rw [← heq, hindex]
    exact h.live hp₀
  · intro key l hl
    rw [hindex] at hl
    have hisSome := congrArg Option.isSome (hlive l.pack)
    rw [Option.isSome_map, Option.isSome_map] at hisSome
    rw [hisSome]
    exact h.owned hl

/-- Nothing points at a pack that is not there. -/
theorem Lives.liveBytes_new (h : Lives c) (hnew : c.packs.lookup id = none) :
    liveBytes c.index id = 0 := by
  apply Map.sum_eq_zero
  intro key l hl
  rw [if_neg]
  rintro rfl
  have howned := h.owned hl
  rw [hnew] at howned
  cases howned

theorem Lives.insert (h : Lives c) (hnew : c.packs.lookup id = none) (hp : p.live = 0) :
    Lives { c with packs := c.packs.insert id p } := by
  refine ⟨?_, ?_⟩
  · intro i q hq
    simp only [Map.lookup_insert_eq] at hq
    split at hq
    · next heq =>
        cases hq
        rw [heq, h.liveBytes_new hnew, hp]
    · exact h.live hq
  · intro key l hl
    simp only [Map.lookup_insert_eq]
    split
    · rfl
    · exact h.owned hl

/-- The bytes that a key no longer keeps alive in a pack once it is put again. -/
def Core.dead (c : Core) (key : Bytes) (id : Nat) : Int :=
  Map.part c.index key fun _ l => if l.pack = id then l.len else 0

theorem dead_nonneg (c : Core) (key : Bytes) (id : Nat) : 0 ≤ c.dead key id := by
  apply Map.part_nonneg
  intro _ l
  split <;> omega

theorem lookup_unlive (c : Core) (key : Bytes) (id : Nat) :
    (c.unlive key).lookup id =
      (c.packs.lookup id).map fun p => { p with live := p.live - c.dead key id } := by
  unfold Core.unlive
  cases hold : c.index.lookup key with
  | none =>
      rw [Core.dead, Map.part_of_none hold]
      simp
  | some old =>
      rw [Core.dead, Map.part_of_some hold]
      simp only [Map.lookup_adjust]
      by_cases h : id = old.pack
      · simp [h]
      · have hne : old.pack ≠ id := Ne.symm h
        simp [h, hne]

/-- A key is bound to a new place: both packs are adjusted. -/
theorem lookup_rebind (c : Core) (key : Bytes) (l : Loc) (f : Pack → Pack) (id : Nat) :
    (Map.adjust (c.unlive key) l.pack f).lookup id = (c.packs.lookup id).map fun p =>
      if id = l.pack then f { p with live := p.live - c.dead key id }
      else { p with live := p.live - c.dead key id } := by
  rw [Map.lookup_adjust, lookup_unlive]
  split <;> simp [Function.comp_def]

theorem Lives.rebind {c c' : Core} (h : Lives c) {key : Bytes} {l : Loc} {f : Pack → Pack}
    (hl : (c.packs.lookup l.pack).isSome) (hf : ∀ p, (f p).live = p.live + l.len)
    (hindex : c'.index = c.index.insert key l)
    (hpacks : c'.packs = Map.adjust (c.unlive key) l.pack f) : Lives c' := by
  refine ⟨?_, ?_⟩
  · intro id p hp
    rw [hpacks, lookup_rebind, Option.map_eq_some_iff] at hp
    obtain ⟨p₀, hp₀, heq⟩ := hp
    have hsum : liveBytes (c.index.insert key l) id + c.dead key id =
        liveBytes c.index id + if l.pack = id then (l.len : Int) else 0 :=
      Map.sum_insert c.index key l _
    have hold := h.live hp₀
    rw [hindex]
    by_cases hid : id = l.pack
    · rw [if_pos hid] at heq
      rw [if_pos hid.symm] at hsum
      rw [← heq, hf]
      simp only
      omega
    · rw [if_neg hid] at heq
      rw [if_neg (Ne.symm hid)] at hsum
      rw [← heq]
      simp only
      omega
  · intro key' l' hl'
    rw [hpacks, lookup_rebind, Option.isSome_map]
    rw [hindex, Map.lookup_insert_eq] at hl'
    split at hl'
    · cases hl'
      exact hl
    · exact h.owned hl'

/-- The live bytes grow at one pack only, and there by at most `n`. -/
def Grows (c c' : Core) (id : Nat) (n : Int) : Prop :=
  ∀ i p', c'.packs.lookup i = some p' → ∃ p, c.packs.lookup i = some p ∧
    p'.live ≤ p.live + if i = id then n else 0

theorem Grows.refl (c : Core) (id : Nat) : Grows c c id 0 := by
  intro i p hp
  exact ⟨p, hp, by split <;> omega⟩

theorem Grows.trans {c c' c'' : Core} {m n : Int} (h : Grows c c' id m) (h' : Grows c' c'' id n) :
    Grows c c'' id (m + n) := by
  intro i p'' hp''
  obtain ⟨p', hp', hle'⟩ := h' i p'' hp''
  obtain ⟨p, hp, hle⟩ := h i p' hp'
  refine ⟨p, hp, ?_⟩
  split at hle <;> simp_all <;> omega

/-- `add` either leaves the tables alone or rebinds the key. -/
theorem add_cases (c : Core) (e : Bytes × Loc) : c.add e = c ∨ c.add e =
    { c with
      index := c.index.insert e.1 e.2
      packs := Map.adjust (c.unlive e.1) e.2.pack fun p =>
        { p with live := p.live + e.2.len } } := by
  unfold Core.add Core.unlive
  cases c.index.lookup e.1 with
  | none => exact Or.inr rfl
  | some old =>
      simp only
      split
      · exact Or.inl rfl
      · exact Or.inr rfl

theorem Lives.add (h : Lives c) (he : (c.packs.lookup e.2.pack).isSome) : Lives (c.add e) := by
  rcases add_cases c e with heq | heq
  · rwa [heq]
  · rw [heq]
    exact h.rebind he (fun _ => rfl) rfl rfl

theorem grows_add (c : Core) (e : Bytes × Loc) : Grows c (c.add e) e.2.pack e.2.len := by
  rcases add_cases c e with heq | heq
  · rw [heq]
    intro i p hp
    exact ⟨p, hp, by split <;> omega⟩
  · rw [heq]
    intro i p' hp'
    simp only [lookup_rebind, Option.map_eq_some_iff] at hp'
    obtain ⟨p, hp, rfl⟩ := hp'
    have hdead := dead_nonneg c e.1 i
    refine ⟨p, hp, ?_⟩
    split <;> simp only <;> omega

/-- The lengths of the values that a load adds. -/
def valueBytes (es : List (Bytes × Loc)) : Nat := (es.map fun e => e.2.len).sum

theorem Lives.foldl_add (hes : ∀ e ∈ es, e.2.pack = id) (h : Lives c)
    (hid : (c.packs.lookup id).isSome) :
    Lives (es.foldl Core.add c) ∧ Grows c (es.foldl Core.add c) id (valueBytes es) := by
  induction es generalizing c with
  | nil => exact ⟨h, Grows.refl c id⟩
  | cons e es ih =>
      have he : e.2.pack = id := hes e (.head _)
      have hid' : ((c.add e).packs.lookup id).isSome := by
        have hplace := congrArg Option.isSome (add_place? c e id)
        rw [Core.place?, Core.place?, Option.isSome_map, Option.isSome_map] at hplace
        rwa [hplace]
      obtain ⟨hlives, hgrows⟩ :=
        ih (fun e' he' => hes e' (.tail _ he')) (h.add (he ▸ hid)) hid'
      refine ⟨hlives, ?_⟩
      have hstep := (he ▸ grows_add c e : Grows c (c.add e) id e.2.len).trans hgrows
      have hsum : ((valueBytes (e :: es) : Nat) : Int) = e.2.len + valueBytes es := by
        rw [valueBytes, List.map_cons, List.sum_cons, ← valueBytes]
        exact Int.natCast_add _ _
      rw [hsum]
      exact hstep

/-- The invariant behind `Core.Accounted`. -/
structure Booked (c : Core) : Prop extends Totals c, Lives c where
  fits : ∀ {id p}, c.packs.lookup id = some p → p.live ≤ p.size

theorem Booked.accounted (h : Booked c) : c.Accounted := by
  refine ⟨h.total, h.live, h.owned, ?_⟩
  intro id p hp
  exact ⟨(h.live hp).symm ▸ liveBytes_nonneg c.index id, h.fits hp⟩

theorem place?_eq_none_iff : c.place? id = none ↔ c.packs.lookup id = none :=
  Option.map_eq_none_iff

theorem isSome_lookup_foldl_add (es : List (Bytes × Loc)) (c : Core) (i : Nat) :
    ((es.foldl Core.add c).packs.lookup i).isSome = (c.packs.lookup i).isSome := by
  have hplace := congrArg Option.isSome ((foldl_add es c).2.1 i)
  rwa [Core.place?, Core.place?, Option.isSome_map, Option.isSome_map] at hplace

/-- The tables after a load know one pack more. -/
structure Joined (c c' : Core) (id : Nat) : Prop where
  booked : Booked c'
  tiers : c'.tiers.length = c.tiers.length
  packs : ∀ i, (c'.packs.lookup i).isSome ↔ i = id ∨ (c.packs.lookup i).isSome

section Join

variable (h : Booked c) (hnew : c.packs.lookup p.id = none) (htier : p.tier < c.tiers.length)
  (hlive : p.live = 0) (hes : ∀ e ∈ es, e.2.pack = p.id) (hfit : valueBytes es ≤ n)
  (hindex : c'.index = (es.foldl Core.add { c with packs := c.packs.insert p.id p }).index)
  (htiers : c'.tiers = addTotal c.tiers p.tier n)
  (hpacks : ∀ i, c'.packs.lookup i =
    ((es.foldl Core.add { c with packs := c.packs.insert p.id p }).packs.lookup i).map fun q =>
      if i = p.id then { q with size := n } else q)
include h hnew htier hlive hes hfit hindex htiers hpacks

/-- A new pack with its entries: the tables after a load. -/
theorem Booked.enter : Booked c' := by
  have hin : (AList.lookup p.id (c.packs.insert p.id p)).isSome := by
    rw [AList.lookup_insert]
    rfl
  obtain ⟨hlives, hgrows⟩ := (h.toLives.insert hnew hlive).foldl_add hes hin
  obtain ⟨-, hplace, -⟩ := Jigd.foldl_add es { c with packs := c.packs.insert p.id p }
  have hplace' : ∀ i, c'.place? i = if i = p.id then some ⟨p.id, p.tier, n⟩ else c.place? i := by
    intro i
    have hi := hplace i
    rw [place?_insert] at hi
    unfold Core.place? at hi ⊢
    rw [hpacks, Option.map_map]
    by_cases hid : i = p.id
    · rw [if_pos hid] at hi ⊢
      obtain ⟨q, hq, hqp⟩ := Option.map_eq_some_iff.mp hi
      rw [hq, Option.map_some, Function.comp_apply, if_pos hid]
      exact congrArg some (congrArg (fun r : Place => { r with size := n }) hqp)
    · rw [if_neg hid] at hi ⊢
      rw [← hi]
      congr 1
      funext q
      rw [Function.comp_apply, if_neg hid]
  refine ⟨h.toTotals.replace hplace' ?_ ?_ ?_, hlives.congr hindex ?_, ?_⟩
  · intro r hr
    cases hr
    exact ⟨htier, rfl⟩
  · rw [htiers, addTotal_length]
  · intro t tier' htier'
    rw [htiers, getElem?_addTotal] at htier'
    obtain ⟨tier, ht, rfl⟩ := Option.map_eq_some_iff.mp htier'
    refine ⟨tier, ht, ?_⟩
    rw [place?_eq_none_iff.mpr hnew]
    simp only [contribution, Option.elim_none, Option.elim_some, eq_comm (a := t)]
    omega
  · intro i
    rw [hpacks, Option.map_map]
    congr 1
    funext q
    rw [Function.comp_apply]
    split <;> rfl
  · intro i q hq
    rw [hpacks, Option.map_eq_some_iff] at hq
    obtain ⟨q', hq', rfl⟩ := hq
    obtain ⟨q₀, hq₀, hle⟩ := hgrows i q' hq'
    have hsize := hplace i
    rw [place?_eq_some hq', place?_eq_some hq₀] at hsize
    have hsize' : q'.size = q₀.size := congrArg Place.size (Option.some.inj hsize)
    simp only [Map.lookup_insert_eq] at hq₀
    split
    · next hid =>
        rw [if_pos hid] at hq₀ hle
        cases hq₀
        simp only
        omega
    · next hid =>
        rw [if_neg hid] at hq₀ hle
        have hold := h.fits hq₀
        omega

theorem Booked.join : Joined c c' p.id := by
  refine ⟨h.enter hnew htier hlive hes hfit hindex htiers hpacks, ?_, ?_⟩
  · rw [htiers, addTotal_length]
  · intro i
    rw [hpacks, Option.isSome_map, isSome_lookup_foldl_add]
    simp only [Map.lookup_insert_eq]
    split <;> simp_all

end Join

/-- The hint file of every pack claims no more bytes than the pack has. -/
def HintsFit (d : Disk) : Prop :=
  ∀ {t id bs hint}, d.bytes? t id = some bs → d.hint? t id = some hint →
    valueBytes (hintLocs id bs.length hint) ≤ bs.length

theorem mem_hintLocs_pack {id size : Nat} {hint : Bytes} (h : e ∈ hintLocs id size hint) :
    e.2.pack = id := by
  obtain ⟨entry, -, hentry⟩ := List.mem_filterMap.mp h
  unfold hintLoc at hentry
  split at hentry
  · cases hentry
  · cases hentry
    rfl

theorem mem_scanLocs_pack {id off : Nat} {recs : List Record} (h : e ∈ scanLocs id off recs) :
    e.2.pack = id := by
  induction recs generalizing off with
  | nil => cases h
  | cons r rs ih =>
      rcases List.mem_cons.mp h with rfl | h
      · rfl
      · exact ih h

/-- The values of whole records fit into the bytes of the records. -/
theorem valueBytes_scanLocs (id off : Nat) (recs : List Record) :
    valueBytes (scanLocs id off recs) ≤ (recordFormat.writeAll recs).length := by
  induction recs generalizing off with
  | nil => exact Nat.zero_le _
  | cons r rs ih =>
      have hrest := ih (off + recHeader + r.key.length + r.value.length)
      have hlen : r.value.length ≤ (recordFormat.write r).length := by
        change _ ≤ (Record.header r.key r.value.length ++ r.value).length
        rw [List.length_append]
        exact Nat.le_add_left _ _
      rw [Format.writeAll_cons, List.length_append]
      have hsum : valueBytes (scanLocs id off (r :: rs)) =
          r.value.length +
            valueBytes (scanLocs id (off + recHeader + r.key.length + r.value.length) rs) := by
        simp [scanLocs, valueBytes]
      omega

theorem Booked.loadHint (h : Booked c) {hint : Bytes} (hnew : c.packs.lookup p.id = none)
    (htier : p.tier < c.tiers.length) (hlive : p.live = 0)
    (hfit : valueBytes (hintLocs p.id p.size hint) ≤ p.size) :
    Joined c (Core.loadHint { c with packs := c.packs.insert p.id p } p hint).state p.id := by
  obtain ⟨-, hplace, htiers⟩ :=
    foldl_add (hintLocs p.id p.size hint) { c with packs := c.packs.insert p.id p }
  refine h.join hnew htier hlive (fun e he => mem_hintLocs_pack he) hfit ?_ ?_ ?_
  · rfl
  · exact congrArg (addTotal · p.tier p.size) htiers
  · intro i
    have hi := hplace i
    rw [place?_insert] at hi
    change ((hintLocs p.id p.size hint).foldl Core.add _).packs.lookup i = _
    cases hq : ((hintLocs p.id p.size hint).foldl Core.add
      { c with packs := c.packs.insert p.id p }).packs.lookup i with
    | none => rfl
    | some q =>
        rw [Option.map_some]
        split
        · next hid =>
            rw [place?_eq_some hq, if_pos hid] at hi
            have hsize : q.size = p.size := congrArg Place.size (Option.some.inj hi)
            rw [← hsize]
        · rfl

theorem Booked.loadScan (h : Booked c) {bs : Bytes} {io : LoadIO}
    (hnew : c.packs.lookup p.id = none) (htier : p.tier < c.tiers.length) (hlive : p.live = 0)
    (hok : (Core.loadScan { c with packs := c.packs.insert p.id p } p bs now io).ok = true) :
    Joined c (Core.loadScan { c with packs := c.packs.insert p.id p } p bs now io).state p.id := by
  have hstate : (Core.loadScan { c with packs := c.packs.insert p.id p } p bs now io).state =
      ((scanLocs p.id 0 (recordFormat.readAll bs).1).foldl Core.add
        { c with packs := c.packs.insert p.id p }).resize p
          (recordFormat.writeAll (recordFormat.readAll bs).1).length := by
    unfold Core.loadScan at hok ⊢
    simp only at hok ⊢
    split at hok
    · cases hok
    · next hcut =>
        rw [if_neg hcut]
        split <;> rfl
  obtain ⟨-, -, htiers⟩ := foldl_add (scanLocs p.id 0 (recordFormat.readAll bs).1)
    { c with packs := c.packs.insert p.id p }
  rw [hstate]
  refine h.join hnew htier hlive (fun e he => mem_scanLocs_pack he)
    (valueBytes_scanLocs p.id 0 (recordFormat.readAll bs).1) ?_ ?_ ?_
  · rfl
  · exact congrArg (addTotal · p.tier _) htiers
  · intro i
    unfold Core.resize
    simp only [Map.lookup_adjust]
    split <;> simp

/-- A load that reports no error keeps the books. -/
theorem Booked.load (h : Booked c) {t id : Nat} {io : LoadIO}
    (hnew : c.packs.lookup id = none) (ht : t < c.tiers.length)
    (hfit : ∀ {bs hint}, d.bytes? t id = some bs → d.hint? t id = some hint →
      valueBytes (hintLocs id bs.length hint) ≤ bs.length)
    (hok : (c.load d t id now io).ok = true) : Joined c (c.load d t id now io).state id := by
  unfold Core.load at hok ⊢
  cases hfile : d.pack? t id with
  | none => simp [hfile] at hok
  | some f =>
      have hbytes : d.bytes? t id = some f.bytes := by
        rw [Disk.bytes?, hfile]
        rfl
      simp only [hfile] at hok ⊢
      split at hok
      · cases hok
      · next hopen =>
          rw [if_neg hopen]
          cases hhint : if io.hintFails then none else d.hint? t id with
          | none =>
              simp only [hhint] at hok ⊢
              exact h.loadScan (p := ⟨id, t, f.bytes.length, 0, f.mtime, f.mtime⟩) hnew ht rfl hok
          | some hint =>
              have hhint' : d.hint? t id = some hint := by
                split at hhint
                · cases hhint
                · exact hhint
              exact h.loadHint (p := ⟨id, t, f.bytes.length, 0, f.mtime, f.mtime⟩) hnew ht rfl
                (hfit hbytes hhint')

theorem scanPackName_lt {name : Bytes} (h : scanPackName name = some id) :
    id < 10 ^ 6 := by
  unfold scanPackName at h
  simp only at h
  split at h
  · cases h
    have hlen : ((name.take 6).takeWhile isDigit).length ≤ 6 :=
      (List.takeWhile_sublist _).length_le.trans (List.length_take_le 6 name)
    have hdigits : ∀ ds : Bytes, (∀ b ∈ ds, isDigit b = true) →
        parseDecimal ds < 10 ^ ds.length := by
      intro ds
      induction ds using List.reverseRecOn with
      | nil =>
          intro _
          decide
      | append_singleton ds b ih =>
          intro hall
          have hb : b.toNat - 48 < 10 := by
            have hdigit := hall b (by simp)
            rw [isDigit, Bool.and_eq_true, decide_eq_true_iff, decide_eq_true_iff] at hdigit
            have hle : b.toNat ≤ 57 := UInt8.le_iff_toNat_le.mp hdigit.2
            omega
          have hds := ih fun x hx => hall x (List.mem_append_left _ hx)
          simp only [parseDecimal, List.foldl_append, List.foldl_cons, List.foldl_nil] at hds ⊢
          rw [List.length_append, List.length_singleton, pow_succ]
          omega
    refine (hdigits _ fun b hb => ?_).trans_le (Nat.pow_le_pow_right (by decide) hlen)
    exact List.mem_takeWhile_imp hb
  · cases h

/-- The loop of `OpenStore` meets no pack that fails to load. -/
def loadsPack (now : Int) (io : OpenIO) (t : Nat) (o : Opening) (name : Bytes) : Prop :=
  ∀ id ∈ scanPackName name, id ∉ o.core.packs →
    (o.core.load o.disk t id now (io.load t id)).ok = true

/-- Every pack of the directories loads without an error. -/
def LoadsAll (budgets : List Int) (d : Disk) (now : Int) (io : OpenIO) : Prop :=
  AlongFold
    (fun o t => AlongFold (loadsPack now io t) (openPack now io t) o (o.disk.packNames t))
    (openTier now io) ⟨⟨budgets.map fun b => ⟨b, 0⟩, ∅, ∅⟩, d, [], 0⟩
    (List.range budgets.length)

/-- The books while `OpenStore` goes through the directories `d`; the files of a
pack that is not loaded yet are as they were. -/
structure Opens (d : Disk) (n : Nat) (o : Opening) : Prop where
  booked : Booked o.core
  tiers : o.core.tiers.length = n
  le_last : ∀ {id}, (o.core.packs.lookup id).isSome → id ≤ o.last
  last_lt : o.last < 10 ^ 6
  bytes : ∀ {id}, o.core.packs.lookup id = none → ∀ t, o.disk.bytes? t id = d.bytes? t id
  hint : ∀ {id}, o.core.packs.lookup id = none → ∀ t, o.disk.hint? t id = d.hint? t id

theorem loadScan_ops (c : Core) (p : Pack) (bs : Bytes) (now : Int) (io : LoadIO) :
    ∀ op ∈ (c.loadScan p bs now io).ops, op.target = p.id := by
  unfold Core.loadScan
  simp only
  split
  · simp
  · split <;> split <;> simp [FileOp.target, Core.seal]

/-- A load writes only the files of its pack. -/
theorem load_ops (c : Core) (d : Disk) (t id : Nat) (now : Int) (io : LoadIO) :
    ∀ op ∈ (c.load d t id now io).ops, op.target = id := by
  unfold Core.load
  split
  · simp
  · split
    · simp
    · simp only
      split
      · simp [Core.loadHint]
      · exact loadScan_ops _ _ _ _ _

theorem Opens.openPack {o : Opening} (h : Opens d n o) (hfit : HintsFit d) {t : Nat} (ht : t < n)
    {name : Bytes} (hload : loadsPack now io t o name) :
    Opens d n (Jigd.openPack now io t o name) := by
  unfold Jigd.openPack
  cases hname : scanPackName name with
  | none => exact h
  | some id =>
      simp only
      split
      · next hdup =>
          have hsome : (o.core.packs.lookup id).isSome := AList.lookup_isSome.mpr hdup
          have hother : ∀ {i}, o.core.packs.lookup i = none → i ≠ id := by
            rintro i hi rfl
            rw [hi] at hsome
            cases hsome
          have hops : ∀ {i}, i ≠ id →
              ∀ op ∈ [FileOp.removePack t id, .removeHint t id], op.target ≠ i := by
            intro i hi
            simp [FileOp.target, hi.symm]
          refine ⟨h.booked, h.tiers, h.le_last, h.last_lt, ?_, ?_⟩
          · intro i hi t'
            exact (applyAll_other (hops (hother hi)) o.disk t').1.trans (h.bytes hi t')
          · intro i hi t'
            exact (applyAll_other (hops (hother hi)) o.disk t').2.trans (h.hint hi t')
      · next hnew =>
          have hnone : o.core.packs.lookup id = none := AList.lookup_eq_none.mpr hnew
          have hok := hload id hname hnew
          have hjoin := h.booked.load hnone (h.tiers ▸ ht)
            (fun hb hh => hfit (h.bytes hnone t ▸ hb) (h.hint hnone t ▸ hh)) hok
          have hother : ∀ {i},
              (o.core.load o.disk t id now (io.load t id)).state.packs.lookup i = none →
              i ≠ id ∧ o.core.packs.lookup i = none := by
            intro i hi
            have hnot := mt (hjoin.packs i).mpr (by rw [hi]; exact Bool.false_ne_true)
            rw [not_or, Option.not_isSome_iff_eq_none] at hnot
            exact hnot
          have hops : ∀ {i}, i ≠ id →
              ∀ op ∈ (o.core.load o.disk t id now (io.load t id)).ops, op.target ≠ i := by
            intro i hi op hop
            rw [load_ops o.core o.disk t id now (io.load t id) op hop]
            exact hi.symm
          refine ⟨hjoin.booked, hjoin.tiers.trans h.tiers, ?_, ?_, ?_, ?_⟩
          · intro i hi
            simp only [hok, if_true]
            rcases (hjoin.packs i).mp hi with rfl | hi
            · exact Nat.le_max_right _ _
            · exact (h.le_last hi).trans (Nat.le_max_left _ _)
          · simp only [hok, if_true]
            exact Nat.max_lt.mpr ⟨h.last_lt, scanPackName_lt hname⟩
          · intro i hi t'
            obtain ⟨hne, hi'⟩ := hother hi
            exact (applyAll_other (hops hne) o.disk t').1.trans (h.bytes hi' t')
          · intro i hi t'
            obtain ⟨hne, hi'⟩ := hother hi
            exact (applyAll_other (hops hne) o.disk t').2.trans (h.hint hi' t')

/-- The books of a store; the active pack is in the first tier and the newest. -/
structure Ledger (s : Store) : Prop extends Booked s.toCore where
  active : ∃ a, s.packs.lookup s.active = some a ∧ a.tier = 0
  le_active : ∀ {id}, (s.packs.lookup id).isSome → id ≤ s.active

/-- A new pack in the first tier. -/
theorem Booked.start {c : Core} (h : Booked c) {id : Nat} (hnew : c.packs.lookup id = none)
    (htiers : 0 < c.tiers.length) (now : Int) :
    Booked { c with packs := c.packs.insert id ⟨id, 0, 0, 0, now, now⟩ } := by
  refine ⟨h.toTotals.replace (place?_insert c _ id) ?_ rfl ?_, h.toLives.insert hnew rfl, ?_⟩
  · intro r hr
    cases hr
    exact ⟨htiers, rfl⟩
  · intro t tier htier
    refine ⟨tier, htier, ?_⟩
    rw [place?_eq_none_iff.mpr hnew]
    simp [contribution, Pack.place]
  · intro i q hq
    simp only [Map.lookup_insert_eq] at hq
    split at hq
    · cases hq
      exact Int.le_refl 0
    · exact h.fits hq

theorem openTiers_opens {budgets : List Int}
    (hload : LoadsAll budgets d now io) (hfit : HintsFit d) :
    Opens d budgets.length (openTiers budgets d now io) := by
  have hstart : Opens d budgets.length
      ⟨⟨budgets.map fun b => ⟨b, 0⟩, ∅, ∅⟩, d, [], 0⟩ := by
    refine ⟨⟨⟨?_, nofun, nofun⟩, ⟨nofun, nofun⟩, nofun⟩, List.length_map _, nofun,
      Nat.pow_pos (Nat.succ_pos 9), fun _ _ => rfl, fun _ _ => rfl⟩
    intro t tier htier
    simp only [List.getElem?_map, Option.map_eq_some_iff] at htier
    obtain ⟨b, -, rfl⟩ := htier
    rfl
  refine AlongFold.invariant ?_ hload hstart
  intro o t ht ho hnames
  refine AlongFold.invariant ?_ hnames ho
  intro o name _ ho hname
  exact ho.openPack hfit (List.mem_range.mp ht) hname

theorem openWorld_ledger {budgets : List Int} {w : World} (hload : LoadsAll budgets d now io)
    (hfit : HintsFit d) (hopen : openWorld budgets d now io = some w) : Ledger w.store := by
  have h := openTiers_opens hload hfit
  have hlast := h.last_lt
  have hid : u32 ((openTiers budgets d now io).last + 1) =
      (openTiers budgets d now io).last + 1 := u32_of_lt (by omega)
  simp only [openWorld, openStore, hid] at hopen
  cases hstart : (openTiers budgets d now io).core.startPack (openTiers budgets d now io).disk
      ((openTiers budgets d now io).last + 1) now (io.createFails || budgets.isEmpty) with
  | none => simp [hstart] at hopen
  | some c =>
      have hpos : 0 < budgets.length := by
        cases budgets with
        | nil => simp [Core.startPack] at hstart
        | cons b bs => exact Nat.succ_pos _
      obtain ⟨-, rfl⟩ := of_startPack hstart
      simp only [hstart, Option.map_some, Option.some.injEq] at hopen
      subst hopen
      generalize openTiers budgets d now io = o at *
      have hnew : o.core.packs.lookup (o.last + 1) = none := by
        rw [← Option.not_isSome_iff_eq_none]
        intro hsome
        exact absurd (h.le_last hsome) (Nat.not_succ_le_self _)
      refine ⟨h.booked.start hnew (h.tiers ▸ hpos) now, ⟨_, AList.lookup_insert _, rfl⟩, ?_⟩
      intro id hsome
      simp only [Map.lookup_insert_eq] at hsome
      split at hsome
      · next heq => exact heq.le
      · exact (h.le_last hsome).trans (Nat.le_succ _)

/-- A record is written to the active pack. -/
theorem Ledger.record (h : Ledger s) {a : Pack} (ha : s.packs.lookup s.active = some a)
    {key body : Bytes} (hbody : body.length ≤ 2 * 2 ^ 30) : Ledger (s.record a key body) := by
  obtain ⟨a', ha', hatier⟩ := h.active
  cases ha.symm.trans ha'
  have hid : a.id = s.active := h.id_eq (place?_eq_some ha)
  have hlen : u32 body.length = body.length := u32_of_lt (by omega)
  have hlookup : ∀ i, (s.record a key body).packs.lookup i = (s.packs.lookup i).map fun p =>
      if i = a.id then
        { p with
          size := p.size + (recHeader + key.length + body.length)
          live := p.live - s.dead key i + body.length }
      else { p with live := p.live - s.dead key i } :=
    fun i => lookup_rebind s.toCore key ⟨a.id, 0, 0⟩ _ i
  have hplace : ∀ i, (s.record a key body).place? i = if i = s.active then
      some ⟨s.active, 0, a.size + (recHeader + key.length + body.length)⟩ else s.place? i := by
    intro i
    rw [Core.place?, hlookup, Option.map_map]
    by_cases hi : i = s.active
    · rw [if_pos hi, hi, ha, Option.map_some, Function.comp_apply, if_pos hid.symm, ← hid, ← hatier]
      rfl
    · rw [if_neg hi, Core.place?]
      congr 1
      funext p
      rw [Function.comp_apply, if_neg (hid ▸ hi)]
      rfl
  have htiers : ∀ t, (s.record a key body).tiers[t]? = s.tiers[t]?.map fun tier : Tier =>
      { tier with total := tier.total +
        if t = 0 then ((recHeader + key.length + body.length : Nat) : Int) else 0 } :=
    fun t => getElem?_addTotal s.tiers 0 t _
  refine ⟨⟨h.toTotals.replace hplace ?_ (addTotal_length _ _ _) ?_, ?_, ?_⟩, ?_, ?_⟩
  · intro r hr
    cases hr
    have hpos : a.tier < s.tiers.length := h.tier_lt (place?_eq_some ha)
    exact ⟨hatier ▸ hpos, rfl⟩
  · intro t tier' htier'
    rw [htiers] at htier'
    obtain ⟨tier, htier, rfl⟩ := Option.map_eq_some_iff.mp htier'
    refine ⟨tier, htier, ?_⟩
    rw [place?_eq_some ha]
    simp only [contribution, Option.elim_some, Pack.place, hatier, eq_comm (a := t)]
    split <;> omega
  · refine @Lives.rebind _ _ h.toLives key
      ⟨a.id, u32 (u32 a.size + recHeader + u32 key.length), u32 body.length⟩ _ ?_ ?_ rfl rfl
    · rw [hid, ha]
      rfl
    · intro p
      rw [hlen]
  · intro i p' hp'
    rw [hlookup] at hp'
    obtain ⟨p, hp, rfl⟩ := Option.map_eq_some_iff.mp hp'
    have hold := h.fits hp
    have hdead := dead_nonneg s.toCore key i
    split <;> simp only <;> omega
  · obtain ⟨a', ha', hplace'⟩ := of_place?_eq_some ((hplace s.active).trans (if_pos rfl))
    exact ⟨a', ha', congrArg Place.tier hplace'⟩
  · intro i hi
    rw [hlookup, Option.isSome_map] at hi
    exact h.le_active hi

theorem Ledger.append {s : Store} (h : Ledger s) {key body : Bytes}
    (hbody : body.length ≤ 2 * 2 ^ 30) (now : Int) (io : PutIO) :
    Ledger (s.append key body now io).state := by
  unfold Store.append
  obtain ⟨a, ha, -⟩ := h.active
  simp only [ha]
  split
  · exact h
  · split
    · exact h
    · split
      · exact h
      · exact h.record ha hbody

theorem Ledger.rotate (h : Ledger s) (hids : s.active + 1 < 2 ^ 32) (d : Disk) (now : Int)
    (io : PutIO) : Ledger (s.rotate d now io).state := by
  unfold Store.rotate
  obtain ⟨a, ha, hatier⟩ := h.active
  simp only [ha, u32_of_lt hids]
  split
  · exact h
  · cases hstart : s.startPack d (s.active + 1) now io.createFails with
    | none => exact h
    | some c =>
        obtain ⟨-, rfl⟩ := of_startPack hstart
        have hnew : s.packs.lookup (s.active + 1) = none := by
          rw [← Option.not_isSome_iff_eq_none]
          intro hsome
          exact absurd (h.le_active hsome) (Nat.not_succ_le_self _)
        have hpos : 0 < s.tiers.length := hatier ▸ h.tier_lt (place?_eq_some ha)
        refine ⟨h.toBooked.start hnew hpos now, ⟨_, AList.lookup_insert _, rfl⟩, ?_⟩
        intro id hsome
        simp only [Map.lookup_insert_eq] at hsome
        split at hsome
        · next heq => exact heq.le
        · exact (h.le_active hsome).trans (Nat.le_succ _)

theorem Ledger.put (h : Ledger s) (hids : s.active + 1 < 2 ^ 32) (d : Disk) (key : Bytes)
    (size : Int) (r : Bytes) (now : Int) (io : PutIO) :
    Ledger (s.put d key size r now io).state := by
  unfold Store.put
  split
  · exact h
  · next hgood =>
      have hbody : (r.take size.toNat).length ≤ 2 * 2 ^ 30 := by
        have hsize : size ≤ 2 * 2 ^ 30 := by
          simp only [badPut, Bool.or_eq_true, not_or, decide_eq_true_iff] at hgood
          omega
        have hlen := List.length_take_le size.toNat r
        omega
      unfold Store.putLocked
      simp only
      split
      · split
        · exact (h.rotate hids d now io).append hbody now io
        · exact h.rotate hids d now io
      · exact h.append hbody now io

/-- `Get` changes only the notes about reads. -/
theorem Ledger.touch (h : Ledger s) (key : Bytes) (now : Int) :
    Ledger (s.touch key now).state := by
  unfold Store.touch
  split
  · exact h
  · next p hp =>
      let f : Pack → Pack := fun q =>
        { q with used := now, touched := if decide (touchEvery < now - p.touched) then now
            else q.touched }
      have hlookup : ∀ i, (Map.adjust s.packs p.id f).lookup i =
          (s.packs.lookup i).map fun q => if i = p.id then f q else q := by
        intro i
        rw [Map.lookup_adjust]
        split <;> simp
      have hsame : ∀ {β : Type} (g : Pack → β) (_ : ∀ q, g (f q) = g q) (i : Nat),
          ((Map.adjust s.packs p.id f).lookup i).map g = (s.packs.lookup i).map g := by
        intro β g hg i
        rw [hlookup, Option.map_map]
        congr 1
        funext q
        rw [Function.comp_apply]
        split
        · exact hg q
        · rfl
      refine ⟨⟨h.toTotals.congr (hsame Pack.place fun _ => rfl) rfl,
        h.toLives.congr rfl (hsame Pack.live fun _ => rfl), ?_⟩, ?_, ?_⟩
      · intro i q' hq'
        obtain ⟨q, hq, rfl⟩ := Option.map_eq_some_iff.mp ((hlookup i).symm.trans hq')
        have hold := h.fits hq
        split <;> exact hold
      · obtain ⟨a, ha, hatier⟩ := h.active
        refine ⟨_, (hlookup s.active).trans (congrArg _ ha), ?_⟩
        split <;> exact hatier
      · intro i hi
        have hisSome := congrArg Option.isSome (hlookup i)
        rw [Option.isSome_map] at hisSome
        exact h.le_active (hisSome ▸ hi)

/-- A deleted pack takes its entries with it. -/
theorem Ledger.evict {s : Store} (h : Ledger s) {id : Nat} (hne : id ≠ s.active) {p : Pack}
    (hp : s.packs.lookup id = some p) : Ledger (s.evict p).state := by
  have hid : p.id = id := h.id_eq (place?_eq_some hp)
  have hlookup : ∀ i, (s.evict p).state.packs.lookup i =
      if i = id then none else s.packs.lookup i := by
    intro i
    rw [← hid]
    exact Map.lookup_erase_eq s.packs p.id i
  have hplace : ∀ i, (s.evict p).state.place? i = if i = id then none else s.place? i := by
    intro i
    rw [Core.place?, hlookup]
    split <;> rfl
  have hbytes : ∀ i, i ≠ id → liveBytes (s.evict p).state.index i = liveBytes s.index i := by
    intro i hi
    refine (Map.sum_filter s.index (fun _ l => l.pack != p.id)
      fun _ l => if l.pack = i then (l.len : Int) else 0).trans (Map.sum_congr ?_)
    intro key l _
    by_cases hl : l.pack = i
    · simp [hl, hid, hi]
    · simp [hl]
  refine ⟨⟨h.toTotals.replace hplace (by simp) (addTotal_length _ _ _) ?_, ⟨?_, ?_⟩, ?_⟩, ?_, ?_⟩
  · intro t tier' htier'
    rw [show (s.evict p).state.tiers = addTotal s.tiers p.tier (-p.size) from rfl,
      getElem?_addTotal] at htier'
    obtain ⟨tier, htier, rfl⟩ := Option.map_eq_some_iff.mp htier'
    refine ⟨tier, htier, ?_⟩
    rw [place?_eq_some hp]
    simp only [contribution, Option.elim_some, Option.elim_none, Pack.place, eq_comm (a := t)]
    split <;> omega
  · intro i q hq
    rw [hlookup] at hq
    split at hq
    · cases hq
    · next hi =>
        rw [hbytes i hi]
        exact h.live hq
  · intro key l hl
    have hl' : (Map.filter s.index fun _ l => l.pack != p.id).lookup key = some l := hl
    rw [Map.lookup_filter, Option.filter_eq_some_iff] at hl'
    have hpack : l.pack ≠ id := by
      rw [← hid]
      exact bne_iff_ne.mp hl'.2
    rw [hlookup, if_neg hpack]
    exact h.owned hl'.1
  · intro i q hq
    rw [hlookup] at hq
    split at hq
    · cases hq
    · exact h.fits hq
  · obtain ⟨a, ha, hatier⟩ := h.active
    exact ⟨a, (hlookup s.active).trans ((if_neg (Ne.symm hne)).trans ha), hatier⟩
  · intro i hi
    rw [hlookup] at hi
    split at hi
    · cases hi
    · exact h.le_active hi

/-- A pack on its way down takes its size along. -/
theorem Ledger.demote (h : Ledger s) (hne : id ≠ s.active) (hp : s.packs.lookup id = some p)
    (hlow : p.tier + 1 ≠ s.tiers.length) (d : Disk) (io : MoveIO) :
    Ledger (s.demote d p io).state := by
  unfold Store.demote
  split
  · exact h
  · split
    · exact h
    · split
      · exact h
      · have hid : p.id = id := h.id_eq (place?_eq_some hp)
        have hlookup : ∀ i,
            (Map.adjust s.packs p.id fun q => { q with tier := q.tier + 1 }).lookup i =
              (s.packs.lookup i).map fun q =>
                if i = id then { q with tier := q.tier + 1 } else q := by
          intro i
          rw [Map.lookup_adjust, hid]
          split <;> simp
        refine ⟨⟨@Totals.replace _ _ h.toTotals id (some ⟨id, p.tier + 1, p.size⟩) ?_ ?_ ?_ ?_,
          h.toLives.congr rfl ?_, ?_⟩, ?_, ?_⟩
        · intro i
          simp only [Core.place?, hlookup, Option.map_map]
          by_cases hi : i = id
          · rw [if_pos hi, hi, hp, Option.map_some, Function.comp_apply, if_pos rfl, ← hid]
            rfl
          · rw [if_neg hi]
            congr 1
            funext q
            rw [Function.comp_apply, if_neg hi]
        · intro r hr
          cases hr
          have htier : p.tier < s.tiers.length := h.tier_lt (place?_eq_some hp)
          exact ⟨Nat.lt_of_le_of_ne htier hlow, rfl⟩
        · simp only [addTotal_length]
        · intro t tier' htier'
          simp only [getElem?_addTotal, Option.map_map] at htier'
          obtain ⟨tier, htier, rfl⟩ := Option.map_eq_some_iff.mp htier'
          refine ⟨tier, htier, ?_⟩
          rw [place?_eq_some hp]
          simp only [contribution, Option.elim_some, Pack.place, Function.comp_apply,
            eq_comm (a := t)]
          split <;> split <;> omega
        · intro i
          simp only [hlookup, Option.map_map]
          congr 1
          funext q
          rw [Function.comp_apply]
          split <;> rfl
        · intro i q' hq'
          obtain ⟨q, hq, rfl⟩ := Option.map_eq_some_iff.mp ((hlookup i).symm.trans hq')
          have hold := h.fits hq
          split <;> exact hold
        · obtain ⟨a, ha, hatier⟩ := h.active
          refine ⟨a, ?_, hatier⟩
          refine (hlookup s.active).trans ?_
          rw [ha, Option.map_some, if_neg (Ne.symm hne)]
        · intro i hi
          have hisSome := congrArg Option.isSome (hlookup i)
          rw [Option.isSome_map] at hisSome
          exact h.le_active (hisSome ▸ hi)

theorem Ledger.moveDown (h : Ledger s) (hne : id ≠ s.active) (hp : s.packs.lookup id = some p)
    (d : Disk) (io : MoveIO) :
    Ledger (s.moveDown d p io).state := by
  unfold Store.moveDown
  split
  · exact h.evict hne hp
  · next hlow => exact h.demote hne hp hlow d io

theorem ledger_step {w w' : World} {op : Op} (h : Ledger w.store) (hids : NoWrap w op)
    (hstep : w.step op = some w') : Ledger w'.store := by
  obtain ⟨o, ho, rfl⟩ := Option.map_eq_some_iff.mp hstep
  cases op with
  | put key size r now io =>
      cases ho
      exact h.put hids w.disk key size r now io
  | get key now =>
      cases ho
      exact h.touch key now
  | move id io =>
      obtain ⟨hne, p, hp, rfl⟩ := World.outcome_move ho
      exact h.moveDown hne hp w.disk io

/-- In every state that a run reaches from an opened store, the counters are
what they stand for. -/
theorem accounted_after_run {budgets : List Int} {d : Disk} {now : Int} {io : OpenIO}
    {w₀ w : World} {ops : List Op} (hload : LoadsAll budgets d now io) (hfit : HintsFit d)
    (hopen : openWorld budgets d now io = some w₀)
    (hids : Along NoWrap World.step w₀ ops) (hrun : run World.step w₀ ops = some w) :
    w.store.Accounted := by
  have hstart : Ledger w₀.store := openWorld_ledger hload hfit hopen
  have hend : Ledger w.store :=
    run_invariant_along (fun _ _ _ h hid hstep => ledger_step h hid hstep) hstart hids hrun
  exact hend.toBooked.accounted

/-- A sealed pack of one record, "a" with a value of three bytes. -/
def onePack : Disk :=
  ⟨(∅ : Map (Nat × Nat) PackFile).insert (0, 1) ⟨(⟨[97], [1, 2, 3]⟩ : Record).write, 0⟩,
    (∅ : Map (Nat × Nat) Bytes).insert (0, 1) (HintEntry.write ⟨[97], 3, 0⟩)⟩

instance (now : Int) (io : OpenIO) (t : Nat) (o : Opening) (name : Bytes) :
    Decidable (loadsPack now io t o name) :=
  inferInstanceAs (Decidable (∀ id ∈ scanPackName name, _))

instance (budgets : List Int) (d : Disk) (now : Int) (io : OpenIO) :
    Decidable (LoadsAll budgets d now io) :=
  inferInstanceAs (Decidable (AlongFold _ _ _ _))

theorem hintsFit_onePack : HintsFit onePack := by
  intro t id bs hint hbytes hhint
  unfold Disk.bytes? Disk.pack? onePack at hbytes
  unfold Disk.hint? onePack at hhint
  simp only [Map.lookup_insert_eq] at hbytes hhint
  split at hbytes
  · next heq =>
      rw [if_pos heq] at hhint
      cases heq
      cases hbytes
      cases hhint
      decide
  · cases hbytes

/-- The counters after a sealed pack was loaded and its key put again. -/
theorem accounted_after_run_onePack : ∃ w₀ w,
    openWorld [1, 0] onePack 0 OpenIO.good = some w₀ ∧
    run World.step w₀ [smallPut, .move 1 ⟨false, false, false⟩] = some w ∧ w.store.Accounted := by
  obtain ⟨w₀, w, hopen, hids, hrun⟩ : ∃ w₀ w,
      openWorld [1, 0] onePack 0 OpenIO.good = some w₀ ∧
      Along NoWrap World.step w₀ [smallPut, .move 1 ⟨false, false, false⟩] ∧
      run World.step w₀ [smallPut, .move 1 ⟨false, false, false⟩] = some w :=
    ⟨_, _, rfl, by decide, rfl⟩
  exact ⟨w₀, w, hopen, hrun,
    accounted_after_run (by decide) hintsFit_onePack hopen hids hrun⟩

/-- A pack of ten bytes whose hint file claims a value of a hundred: with the
offset close to `2 ^ 64` the sum that is compared with the size is negative. -/
def wrappedHint : Disk :=
  ⟨(∅ : Map (Nat × Nat) PackFile).insert (0, 1) ⟨(⟨[97], [1]⟩ : Record).write, 0⟩,
    (∅ : Map (Nat × Nat) Bytes).insert (0, 1) (HintEntry.write ⟨[97], 100, 2 ^ 64 - 200⟩)⟩

theorem wrapped_hint_exceeds_pack : ∃ w, LoadsAll [0] wrappedHint 0 OpenIO.good ∧
    openWorld [0] wrappedHint 0 OpenIO.good = some w ∧ ¬ w.store.Accounted := by
  obtain ⟨w, p, hload, hopen, hp, hlt⟩ : ∃ w p, LoadsAll [0] wrappedHint 0 OpenIO.good ∧
      openWorld [0] wrappedHint 0 OpenIO.good = some w ∧ w.store.packs.lookup 1 = some p ∧
      (p.size : Int) < p.live :=
    ⟨_, _, by decide, rfl, rfl, by decide⟩
  refine ⟨w, hload, hopen, ?_⟩
  intro h
  have hle := (h.bounds hp).2
  omega

end Repkgs.Jigd
