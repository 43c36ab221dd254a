import Repkgs.Jig.Driver

/-!
# Headers that arguments name

`TakePchOption` takes the file behind every `-include-pch`. The words that enter
the key tell how many files there are, as long as no argument is respelled into
one of the words that the option is read by.
-/

namespace Repkgs.Jig

open Lib

def includePch : Bytes := ascii "-include-pch"

def xclang : Bytes := ascii "-Xclang"

/-- How many files `-include-pch` options name, read from the words alone. Behind
such an option the next word other than `-Xclang` is the file. -/
def namedHeaders : Bool → Args → Nat
  | _, [] => 0
  | false, arg :: rest => namedHeaders (arg = includePch) rest
  | true, arg :: rest =>
      if arg = xclang then namedHeaders true rest else namedHeaders false rest + 1

theorem namedHeaders_file {markers : Args} (hm : ∀ m ∈ markers, m = xclang) {file : Bytes}
    (hfile : file ≠ xclang) (x : Args) :
    namedHeaders true (markers ++ file :: x) = namedHeaders false x + 1 := by
  induction markers with
  | nil => exact if_neg hfile
  | cons m markers ih =>
      rw [List.cons_append, namedHeaders, if_pos (hm m List.mem_cons_self),
        ih fun m' hm' => hm m' (List.mem_cons_of_mem m hm')]

/-- An item adds its header to the count. -/
theorem namedHeaders_item {arg : Bytes} {rest : Args}
    (hfile : (readItem arg rest).complete = true) (x : Args) :
    namedHeaders false ((readItem arg rest).key ++ x) =
      (readItem arg rest).header?.toList.length + namedHeaders false x := by
  by_cases hpch : arg = includePch
  · subst hpch
    obtain ⟨markers, tail, rfl, hm, rfl | ⟨file, y, rfl, hne⟩⟩ := leading_markers rest
    · rw [List.append_nil, includePch, readItem_pch_open hm] at hfile
      cases hfile
    · have hread : readItem includePch (markers ++ file :: y) =
          .pch (includePch :: markers ++ [file]) (some file) := readItem_pch_file hm hne y
      have hkey : Item.key (.pch (includePch :: markers ++ [file]) (some file)) ++ x =
          includePch :: (markers ++ file :: x) := by
        simp [Item.key, Item.raw]
      rw [hread, hkey, namedHeaders, decide_eq_true rfl, namedHeaders_file hm hne]
      exact Nat.add_comm _ _
  · obtain ⟨hheader, hkey⟩ := readItem_plain hpch rest
    rw [hheader, Option.toList_none, List.length_nil, Nat.zero_add]
    rcases hkey with hkey | hkey
    · rw [hkey, List.nil_append]
    · rw [hkey, List.singleton_append, namedHeaders, decide_eq_false hpch]

theorem namedHeaders_items {its : List Item}
    (hread : ∀ item ∈ its, ∃ arg rest, item = readItem arg rest)
    (hfile : ∀ item ∈ its, item.complete = true) (x : Args) :
    namedHeaders false (its.flatMap Item.key ++ x) =
      (its.filterMap Item.header?).length + namedHeaders false x := by
  induction its with
  | nil => simp
  | cons item its ih =>
      obtain ⟨arg, rest, rfl⟩ := hread item List.mem_cons_self
      rw [List.flatMap_cons, List.append_assoc, namedHeaders_item (hfile _ List.mem_cons_self),
        ih (fun i hi => hread i (List.mem_cons_of_mem _ hi))
          (fun i hi => hfile i (List.mem_cons_of_mem _ hi)), List.filterMap_cons]
      cases (readItem arg rest).header? with
      | none => simp
      | some file =>
          simp only [Option.toList_some, List.length_cons, List.length_nil]
          omega

theorem namedHeaders_of_notMem {args : Args} (h : includePch ∉ args) :
    namedHeaders false args = 0 := by
  induction args with
  | nil => rfl
  | cons arg args ih =>
      rw [List.mem_cons, not_or] at h
      rw [namedHeaders, decide_eq_false (Ne.symm h.1), ih h.2]

/-- A respelling that makes no option out of another word keeps the count. -/
theorem namedHeaders_map {f : Bytes → Bytes} {args : Args}
    (hpch : ∀ arg ∈ args, f arg = includePch ↔ arg = includePch)
    (hclang : ∀ arg ∈ args, f arg = xclang ↔ arg = xclang) (behind : Bool) :
    namedHeaders behind (args.map f) = namedHeaders behind args := by
  induction args generalizing behind with
  | nil => cases behind <;> rfl
  | cons arg args ih =>
      have hrest := ih (fun a ha => hpch a (List.mem_cons_of_mem arg ha))
        (fun a ha => hclang a (List.mem_cons_of_mem arg ha))
      cases behind with
      | false => simp [namedHeaders, hpch arg List.mem_cons_self, hrest]
      | true => simp [namedHeaders, hclang arg List.mem_cons_self, hrest]

/-- The arguments of the build system that enter the key name the headers of the call,
if every option is followed by a file. -/
theorem CcRun.namedHeaders_user {r : CcRun} (h : ∀ item ∈ items r.user, item.complete = true) :
    namedHeaders false ((items r.user).flatMap Item.key) = r.inv.pch.length := by
  have hcount := namedHeaders_items (fun item hitem => ?_) h []
  · rwa [List.append_nil, ← r.inv_pch] at hcount
  · obtain ⟨arg, rest, -, hread⟩ := mem_items hitem
    exact ⟨arg, rest, hread⟩

/-- Arguments of the driver without the option name no further ones. -/
theorem CcRun.namedHeaders_keyArgs {r : CcRun}
    (h : ∀ item ∈ items r.user, item.complete = true)
    (hgiven : includePch ∈ r.inv.args → includePch ∈ r.user) :
    namedHeaders false r.inv.keyArgs = r.inv.pch.length := by
  obtain ⟨added, hkey, hadded⟩ := r.inv_keyArgs
  have hnone : includePch ∉ added := fun hmem => (hadded _ hmem).2 (hgiven (hadded _ hmem).1)
  rw [hkey, namedHeaders_items (fun item hitem => ?_) h, namedHeaders_of_notMem hnone, r.inv_pch,
    Nat.add_zero]
  obtain ⟨arg, rest, -, hread⟩ := mem_items hitem
  exact ⟨arg, rest, hread⟩

end Repkgs.Jig
