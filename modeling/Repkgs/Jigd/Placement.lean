import Repkgs.Jigd.Effects

/-!
# Packs and their files

The invariant that ties the pack table to the directories: every pack has its
file, every file belongs to a pack, a second copy of a sealed pack in the next
tier is equal to the first, and no id is above that of the active pack.
-/

namespace Repkgs.Jigd

open Lib

structure Placed (w : World) : Prop where
  active : ∃ a bs, w.store.place? w.store.active = some a ∧ a.tier = 0 ∧
    w.disk.bytes? 0 w.store.active = some bs ∧ a.size ≤ bs.length
  id_eq : ∀ {id p}, w.store.place? id = some p → p.id = id
  le_active : ∀ {id p}, w.store.place? id = some p → id ≤ w.store.active
  has_file : ∀ {id p}, w.store.place? id = some p → ∃ bs, w.disk.bytes? p.tier id = some bs
  file_owner : ∀ {t id bs}, w.disk.bytes? t id = some bs → ∃ p, w.store.place? id = some p ∧
    (t = p.tier ∨ (t = p.tier + 1 ∧ id ≠ w.store.active ∧ w.disk.bytes? p.tier id = some bs))
  tier_lt : ∀ {t id bs}, w.disk.bytes? t id = some bs → t < w.store.tiers.length

variable {w w' : World} {es : List Event}

/-- Only the table of places, the active id and the contents of files matter. -/
theorem Placed.congr (h : Placed w) (hactive : w'.store.active = w.store.active)
    (hplace : ∀ id, w'.store.place? id = w.store.place? id)
    (htiers : w'.store.tiers.length = w.store.tiers.length)
    (hbytes : ∀ t id, w'.disk.bytes? t id = w.disk.bytes? t id) : Placed w' where
  active := by
    simpa only [hactive, hplace, hbytes] using h.active
  id_eq hp := h.id_eq ((hplace _).symm.trans hp)
  le_active hp := by
    rw [hactive]
    exact h.le_active ((hplace _).symm.trans hp)
  has_file hp := by
    simpa only [hbytes] using h.has_file ((hplace _).symm.trans hp)
  file_owner hb := by
    simpa only [hactive, hplace, hbytes] using h.file_owner ((hbytes _ _).symm.trans hb)
  tier_lt hb := by
    rw [htiers]
    exact h.tier_lt ((hbytes _ _).symm.trans hb)

/-- The active pack stands in the first tier only. -/
theorem Placed.active_tier (h : Placed w) {t : Nat} {bs : Bytes}
    (hb : w.disk.bytes? t w.store.active = some bs) : t = 0 := by
  obtain ⟨a, -, ha, htier, -⟩ := h.active
  obtain ⟨p, hp, hor⟩ := h.file_owner hb
  rw [ha] at hp
  cases hp
  rcases hor with rfl | ⟨-, hne, -⟩
  · exact htier
  · exact absurd rfl hne

/-- The contents of the active pack may change behind its last record. -/
theorem Placed.rewrite {a : Place} {n : Nat} {f : Bytes → Bytes} (h : Placed w)
    (ha : w.store.place? w.store.active = some a)
    (hactive : w'.store.active = w.store.active)
    (htiers : w'.store.tiers.length = w.store.tiers.length)
    (hplace : ∀ id, w'.store.place? id =
      if id = w.store.active then some { a with size := n } else w.store.place? id)
    (hbytes : ∀ t id, w'.disk.bytes? t id = if (t, id) = (a.tier, a.id) then
      (w.disk.bytes? t id).map f else w.disk.bytes? t id)
    (hle : ∀ bs, a.size ≤ bs.length → n ≤ (f bs).length) : Placed w' := by
  have hid : a.id = w.store.active := h.id_eq ha
  obtain ⟨a', bs, ha', htier, hbs, hsize⟩ := h.active
  rw [ha] at ha'
  cases ha'
  have hnew : w'.disk.bytes? 0 w.store.active = some (f bs) := by
    rw [hbytes, if_pos (by rw [htier, hid]), hbs]
    rfl
  have hold : ∀ t id, id ≠ w.store.active → w'.disk.bytes? t id = w.disk.bytes? t id := by
    intro t id hne
    rw [hbytes, if_neg]
    intro heq
    exact hne ((Prod.mk.inj heq).2.trans hid)
  refine ⟨⟨{ a with size := n }, f bs, ?_, htier, ?_, hle bs hsize⟩, ?_, ?_, ?_, ?_, ?_⟩
  · rw [hactive, hplace, if_pos rfl]
  · rw [hactive, hnew]
  · intro id p hp
    rw [hplace] at hp
    split at hp
    · next heq =>
        cases hp
        exact hid.trans heq.symm
    · exact h.id_eq hp
  · intro id p hp
    rw [hactive]
    rw [hplace] at hp
    split at hp
    · next heq => exact heq.le
    · exact h.le_active hp
  · intro id p hp
    rw [hplace] at hp
    split at hp
    · next heq =>
        cases hp
        exact ⟨f bs, by rw [heq]; simpa only [htier] using hnew⟩
    · next hne =>
        rw [hold _ _ hne]
        exact h.has_file hp
  · intro t id bs' hb
    rw [hactive]
    by_cases hne : id = w.store.active
    · subst hne
      have ht : t = 0 := by
        rw [hbytes] at hb
        split at hb
        · next heq => exact (Prod.mk.inj heq).1.trans htier
        · exact h.active_tier hb
      exact ⟨{ a with size := n }, by rw [hplace, if_pos rfl], Or.inl (ht.trans htier.symm)⟩
    · rw [hold _ _ hne] at hb
      obtain ⟨p, hp, hor⟩ := h.file_owner hb
      refine ⟨p, by rw [hplace, if_neg hne]; exact hp, ?_⟩
      rw [hold _ _ hne]
      exact hor
  · intro t id bs' hb
    rw [htiers]
    cases hb' : w.disk.bytes? t id with
    | some bs'' => exact h.tier_lt hb'
    | none =>
        rw [hbytes, hb'] at hb
        split at hb <;> cases hb

/-- The next pack starts empty in the first tier, under an id no file has. -/
theorem Placed.start {w w' : World} (h : Placed w)
    (hactive : w'.store.active = w.store.active + 1)
    (htiers : w'.store.tiers.length = w.store.tiers.length)
    (hplace : ∀ id, w'.store.place? id =
      if id = w.store.active + 1 then some ⟨w.store.active + 1, 0, 0⟩ else w.store.place? id)
    (hbytes : ∀ t id, w'.disk.bytes? t id =
      if (t, id) = (0, w.store.active + 1) then some [] else w.disk.bytes? t id) :
    Placed w' := by
  have hfresh : ∀ t bs, w.disk.bytes? t (w.store.active + 1) ≠ some bs := by
    intro t bs hb
    obtain ⟨p, hp, -⟩ := h.file_owner hb
    exact absurd (h.le_active hp) (Nat.not_succ_le_self _)
  have hold : ∀ {id p}, w.store.place? id = some p → id ≠ w.store.active + 1 := by
    rintro id p hp rfl
    exact absurd (h.le_active hp) (Nat.not_succ_le_self _)
  refine ⟨⟨⟨w.store.active + 1, 0, 0⟩, [], ?_, rfl, ?_, Nat.le_refl _⟩, ?_, ?_, ?_, ?_, ?_⟩
  · rw [hactive, hplace, if_pos rfl]
  · rw [hactive, hbytes, if_pos rfl]
  · intro id p hp
    rw [hplace] at hp
    split at hp
    · next heq =>
        cases hp
        exact heq.symm
    · exact h.id_eq hp
  · intro id p hp
    rw [hactive]
    rw [hplace] at hp
    split at hp
    · next heq => exact heq.le
    · exact (h.le_active hp).trans (Nat.le_succ _)
  · intro id p hp
    rw [hplace] at hp
    split at hp
    · next heq =>
        cases hp
        exact ⟨[], by rw [hbytes, heq, if_pos rfl]⟩
    · next hne =>
        obtain ⟨bs, hbs⟩ := h.has_file hp
        refine ⟨bs, ?_⟩
        rw [hbytes, if_neg fun heq => hne (Prod.mk.inj heq).2]
        exact hbs
  · intro t id bs hb
    rw [hbytes] at hb
    split at hb
    · next heq =>
        obtain ⟨rfl, rfl⟩ := Prod.mk.inj heq
        exact ⟨⟨w.store.active + 1, 0, 0⟩, by rw [hplace, if_pos rfl], Or.inl rfl⟩
    · obtain ⟨p, hp, hor⟩ := h.file_owner hb
      refine ⟨p, by rw [hplace, if_neg (hold hp)]; exact hp, hor.imp_right ?_⟩
      rintro ⟨ht, -, hsame⟩
      refine ⟨ht, hactive ▸ hold hp, ?_⟩
      rw [hbytes, if_neg fun heq => hold hp (Prod.mk.inj heq).2]
      exact hsame
  · intro t id bs hb
    rw [htiers]
    rw [hbytes] at hb
    split at hb
    · next heq =>
        obtain ⟨-, bs, -, -, hbs, -⟩ := h.active
        rw [(Prod.mk.inj heq).1]
        exact h.tier_lt hbs
    · exact h.tier_lt hb

/-- A sealed pack is linked into the next tier. -/
theorem Placed.link {id : Nat} {p : Place} (h : Placed w)
    (hp : w.store.place? id = some p) (hne : id ≠ w.store.active)
    (hlow : p.tier + 1 < w.store.tiers.length) (hstore : w'.store = w.store)
    (hbytes : ∀ t i, w'.disk.bytes? t i = if (t, i) = (p.tier + 1, p.id) then
      (w.disk.bytes? t i).or (w.disk.bytes? p.tier p.id) else w.disk.bytes? t i) :
    Placed w' := by
  have hid := h.id_eq hp
  have hkeep : ∀ {t i bs}, w.disk.bytes? t i = some bs → w'.disk.bytes? t i = some bs := by
    intro t i bs hb
    rw [hbytes, hb]
    split <;> rfl
  obtain ⟨a, bs, ha, htier, hbs, hsize⟩ := h.active
  refine ⟨?_, ?_, ?_, ?_, ?_, ?_⟩
  · rw [hstore]
    exact ⟨a, bs, ha, htier, hkeep hbs, hsize⟩
  · rw [hstore]
    exact h.id_eq
  · rw [hstore]
    exact h.le_active
  · intro i q hq
    rw [hstore] at hq
    obtain ⟨bs', hbs'⟩ := h.has_file hq
    exact ⟨bs', hkeep hbs'⟩
  · intro t i bs' hb
    rw [hstore]
    cases hold : w.disk.bytes? t i with
    | some bs'' =>
        rw [hkeep hold] at hb
        cases hb
        obtain ⟨q, hq, hor⟩ := h.file_owner hold
        exact ⟨q, hq, hor.imp_right fun ⟨ht, hi, hsame⟩ => ⟨ht, hi, hkeep hsame⟩⟩
    | none =>
        rw [hbytes, hold] at hb
        split at hb
        · next heq =>
            obtain ⟨rfl, rfl⟩ := Prod.mk.inj heq
            rw [hid] at hb ⊢
            exact ⟨p, hp, Or.inr ⟨rfl, hne, hkeep hb⟩⟩
        · cases hb
  · intro t i bs' hb
    rw [hstore]
    rw [hbytes] at hb
    split at hb
    · next heq =>
        rw [(Prod.mk.inj heq).1]
        exact hlow
    · exact h.tier_lt hb

/-- A pack leaves its tier, either for its copy in the next one or for good. -/
theorem Placed.leave {id : Nat} {p : Place} {q : Option Place} (h : Placed w)
    (hp : w.store.place? id = some p) (hne : id ≠ w.store.active)
    (hactive : w'.store.active = w.store.active)
    (htiers : w'.store.tiers.length = w.store.tiers.length)
    (hplace : ∀ i, w'.store.place? i = if i = id then q else w.store.place? i)
    (hbytes : ∀ t i, w'.disk.bytes? t i =
      if (t, i) = (p.tier, p.id) then none else w.disk.bytes? t i)
    (hcopy : (q = none ∧ w.disk.bytes? (p.tier + 1) id = none) ∨
      (q = some { p with tier := p.tier + 1 } ∧ (w.disk.bytes? (p.tier + 1) id).isSome)) :
    Placed w' := by
  have hid := h.id_eq hp
  have hother : ∀ {t i}, i ≠ id → w'.disk.bytes? t i = w.disk.bytes? t i := by
    intro t i hi
    rw [hbytes, if_neg]
    intro heq
    exact hi ((Prod.mk.inj heq).2.trans hid)
  have hnext : w'.disk.bytes? (p.tier + 1) id = w.disk.bytes? (p.tier + 1) id := by
    rw [hbytes, if_neg]
    intro heq
    exact absurd (Prod.mk.inj heq).1 (Nat.succ_ne_self _)
  obtain ⟨a, bs, ha, htier, hbs, hsize⟩ := h.active
  refine ⟨⟨a, bs, ?_, htier, ?_, hsize⟩, ?_, ?_, ?_, ?_, ?_⟩
  · rw [hactive, hplace, if_neg hne.symm]
    exact ha
  · rw [hactive, hother hne.symm]
    exact hbs
  · intro i r hr
    rw [hplace] at hr
    split at hr
    · next heq =>
        rcases hcopy with ⟨rfl, -⟩ | ⟨rfl, -⟩
        · cases hr
        · cases hr
          exact hid.trans heq.symm
    · exact h.id_eq hr
  · intro i r hr
    rw [hactive]
    rw [hplace] at hr
    split at hr
    · next heq =>
        rw [heq]
        exact h.le_active hp
    · exact h.le_active hr
  · intro i r hr
    rw [hplace] at hr
    split at hr
    · next heq =>
        subst heq
        rcases hcopy with ⟨rfl, -⟩ | ⟨rfl, hsome⟩
        · cases hr
        · cases hr
          obtain ⟨bs', hbs'⟩ := Option.isSome_iff_exists.mp hsome
          exact ⟨bs', hnext.trans hbs'⟩
    · next hi =>
        rw [hother hi]
        exact h.has_file hr
  · intro t i bs' hb
    rw [hactive]
    by_cases hi : i = id
    · subst hi
      have hb' : w.disk.bytes? t i = some bs' ∧ t ≠ p.tier := by
        rw [hbytes] at hb
        split at hb
        · cases hb
        · next hpair =>
            refine ⟨hb, ?_⟩
            rintro rfl
            exact hpair (by rw [hid])
      obtain ⟨r, hr, hor⟩ := h.file_owner hb'.1
      rw [hp] at hr
      cases hr
      rcases hor with rfl | ⟨rfl, -, -⟩
      · exact absurd rfl hb'.2
      · rcases hcopy with ⟨-, hnone⟩ | ⟨rfl, -⟩
        · rw [hnone] at hb'
          cases hb'.1
        · exact ⟨_, by rw [hplace, if_pos rfl], Or.inl rfl⟩
    · rw [hother hi] at hb
      obtain ⟨r, hr, hor⟩ := h.file_owner hb
      refine ⟨r, by rw [hplace, if_neg hi]; exact hr, ?_⟩
      rw [hother hi]
      exact hor
  · intro t i bs' hb
    rw [htiers]
    rw [hbytes] at hb
    split at hb
    · cases hb
    · exact h.tier_lt hb

variable {bound : Nat} {clean : Prop}

/-- Every effect keeps packs and files together. -/
theorem Placed.effect (h : Placed w) (he : Effect bound clean w es w') : Placed w' := by
  cases he with
  | idle ht hf => exact h.congr ht.active ht.place ht.tiers hf.bytes
  | writeHint ha order => exact h.congr rfl (fun _ => rfl) rfl fun _ _ => bytes?_putHint _ _ _ _ _ _
  | start now hbound hfree hhint hindex hactive htiers hplace =>
      exact h.start hactive htiers hplace fun _ _ => bytes?_create _ _ _ _ _ _
  | @scribble s d a r data now ha hr hpre hne hclean =>
      refine h.rewrite (n := a.size) ha rfl rfl ?_ (fun _ _ => bytes?_write _ _ _ _ _ _ _ _) ?_
      · intro id
        split
        · next heq => exact heq ▸ ha
        · rfl
      · intro bs hle
        obtain ⟨front, back, rfl, hlen⟩ := exists_append_of_le hle
        rw [← hlen, writeAt_append]
        simp
  | @truncate s d a now ha =>
      refine h.rewrite (n := a.size) ha rfl rfl ?_ (fun _ _ => bytes?_truncate _ _ _ _ _ _ _) ?_
      · intro id
        split
        · next heq => exact heq ▸ ha
        · rfl
      · intro bs hle
        rw [truncateTo_of_le hle, List.length_take_of_le hle]
  | @append s s' d a r now ha hr hclean hindex hactive htiers hplace =>
      refine h.rewrite ha hactive htiers hplace (fun _ _ => bytes?_write _ _ _ _ _ _ _ _) ?_
      intro bs hle
      obtain ⟨front, back, rfl, hlen⟩ := exists_append_of_le hle
      rw [← hlen, writeAt_append]
      simp
  | linkPack hp hne hlow => exact h.link hp hne hlow rfl fun _ _ => bytes?_linkPack _ _ _ _ _
  | linkHint hp hne hcopy =>
      exact h.congr rfl (fun _ => rfl) rfl fun _ _ => bytes?_linkHint _ _ _ _ _
  | switch hp hne hcopy hhint hindex hactive htiers hplace =>
      have hid := h.id_eq hp
      exact h.leave hp hne hactive htiers hplace (fun _ _ => bytes?_removePack _ _ _ _ _)
        (Or.inr ⟨rfl, hid ▸ hcopy⟩)
  | evict hp hne hlast hindex hactive htiers hplace =>
      have hid := h.id_eq hp
      exact h.leave hp hne hactive htiers hplace (fun _ _ => bytes?_removePack _ _ _ _ _)
        (Or.inl ⟨rfl, hid ▸ hlast⟩)
  | removeHint hgone hfile =>
      exact h.congr rfl (fun _ => rfl) rfl fun _ _ => bytes?_removeHint _ _ _ _ _

theorem Placed.chain (h : Placed w) (hc : Chain bound clean w es w') : Placed w' := by
  induction hc with
  | nil w => exact h
  | cons he _ ih => exact ih (h.effect he)

/-- Pack ids stay below the bound, and no tier comes or goes. -/
theorem Effect.active_tiers (he : Effect bound clean w es w') (hlt : w.store.active < bound) :
    w'.store.active < bound ∧ w'.store.tiers.length = w.store.tiers.length := by
  cases he with
  | idle ht _ => exact ⟨ht.active ▸ hlt, ht.tiers⟩
  | start _ hbound _ _ _ hactive htiers => exact ⟨hactive ▸ hbound, htiers⟩
  | append _ _ _ _ _ hactive htiers => exact ⟨hactive ▸ hlt, htiers⟩
  | switch _ _ _ _ _ hactive htiers => exact ⟨hactive ▸ hlt, htiers⟩
  | evict _ _ _ _ hactive htiers => exact ⟨hactive ▸ hlt, htiers⟩
  | _ => exact ⟨hlt, rfl⟩

theorem Chain.active_tiers (hc : Chain bound clean w es w') (hlt : w.store.active < bound) :
    w'.store.active < bound ∧ w'.store.tiers.length = w.store.tiers.length := by
  induction hc with
  | nil w => exact ⟨hlt, rfl⟩
  | cons he _ ih =>
      obtain ⟨hlt', htiers⟩ := he.active_tiers hlt
      obtain ⟨hdone, hall⟩ := ih hlt'
      exact ⟨hdone, hall.trans htiers⟩

end Repkgs.Jigd
