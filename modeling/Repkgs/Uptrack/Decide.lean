import Repkgs.Uptrack.Version

/-!
# Choosing a version

`decide` of uptrack (`pipeline.nu`) proposes the newest candidate that may be
taken. Which versions `allow` admits, which releases are too young and how a date
is printed are inputs here.
-/

namespace Repkgs.Uptrack

open Lib

/-- A version a datasource knows. -/
structure Candidate where
  version : Bytes
  prerelease : Bool
  date : Option Bytes
  deriving DecidableEq

/-- What `decide` reads of a package. -/
structure Package where
  current : Option Bytes
  prerelease : Bool
  every : Option Bytes
  candidates : List Candidate
  error : Option Bytes

structure Decision where
  oldVersion : Option Bytes
  newVersion : Option Bytes
  note : Option Bytes
  candidate : Option Candidate

/-- `version satisfies`, the age of a release against `every`, and `format date`. -/
structure Policy where
  satisfies : Bytes → Bool
  young : Candidate → Bool
  showDate : Bytes → Bytes

section Decide

variable (policy : Policy) (prerelease : Bool) (pkg : Package)

def allowed : List Candidate :=
  pkg.candidates.filter fun c =>
    (prerelease || pkg.prerelease || !c.prerelease) && policy.satisfies c.version

def tooYoung : List Candidate :=
  if pkg.every.isNone then []
  else (allowed policy prerelease pkg).filter fun c => c.date.isSome && policy.young c

def eligible : List Candidate :=
  (allowed policy prerelease pkg).filter fun c => c ∉ tooYoung policy prerelease pkg

def eligibleVersions : List Bytes := (eligible policy prerelease pkg).map Candidate.version

/-- Why there is nothing to choose from. -/
def problem : Option Bytes :=
  pkg.error.or
    (if pkg.candidates.isEmpty then some (ascii "datasource returned no versions")
    else if (versionMax (eligibleVersions policy prerelease pkg)).isNone then
      some (ascii "all " ++ ascii (toString pkg.candidates.length) ++
        ascii " candidates filtered by allow/prerelease/every")
    else none)

/-- The note on an update to `best`. -/
def updateNote (best : Bytes) (chosen : Candidate) : Bytes :=
  let newerPre := versionMax (((pkg.candidates.filter Candidate.prerelease).map
    Candidate.version).filter fun v => 0 < versionCmp v best)
  let young := tooYoung policy prerelease pkg
  (ascii ", ").intercalate ([
    chosen.date.map fun d => ascii "released " ++ policy.showDate d,
    if young.isEmpty then none else some (ascii (toString young.length) ++
      ascii " newer held by every=" ++ pkg.every.getD []),
    newerPre.map fun v => ascii "pre-release " ++ v ++ ascii " ignored"].filterMap id)

/-- `decide` for one package. -/
def decide : Decision :=
  match problem policy prerelease pkg,
    versionMax (eligibleVersions policy prerelease pkg) with
  | some note, _ => ⟨pkg.current, none, some note, none⟩
  | none, none => ⟨pkg.current, none, none, none⟩
  | none, some best =>
      if pkg.current.any fun current => versionCmp best current ≤ 0 then
        ⟨pkg.current, none, none, none⟩
      else
        match (eligible policy prerelease pkg).find? fun c => c.version = best with
        | none => ⟨pkg.current, none, none, none⟩
        | some chosen => ⟨pkg.current, some best,
            some (updateNote policy prerelease pkg best chosen), some chosen⟩

variable {policy prerelease pkg}

/-- What `decide` proposes is the greatest eligible version that its pass found,
and newer than the one there is. -/
theorem of_decide {v : Bytes} (h : (decide policy prerelease pkg).newVersion = some v) :
    versionMax (eligibleVersions policy prerelease pkg) = some v ∧
      ∀ current, pkg.current = some current → 0 < versionCmp v current := by
  unfold decide at h
  split at h
  · cases h
  · cases h
  · next best _ hbest =>
      split at h
      · cases h
      · next hnew =>
          split at h
          · cases h
          · cases h
            refine ⟨hbest, fun current hcurrent => ?_⟩
            rw [hcurrent, Option.any_some, decide_eq_true_iff] at hnew
            omega

/-- `decide` proposes something when there is an eligible version and the
greatest one found is newer than the current one. -/
theorem decide_of_best {v : Bytes} (herror : pkg.error = none)
    (hbest : versionMax (eligibleVersions policy prerelease pkg) = some v)
    (hnew : ∀ current, pkg.current = some current → 0 < versionCmp v current)
    (hmem : v ∈ eligibleVersions policy prerelease pkg) :
    (decide policy prerelease pkg).newVersion = some v := by
  obtain ⟨c, hc, hcv⟩ := List.mem_map.mp hmem
  have hcandidates : pkg.candidates.isEmpty = false := by
    have hcand : c ∈ pkg.candidates := List.mem_of_mem_filter (List.mem_of_mem_filter hc)
    cases hlist : pkg.candidates with
    | nil =>
        rw [hlist] at hcand
        cases hcand
    | cons _ _ => rfl
  have hproblem : problem policy prerelease pkg = none := by
    simp [problem, herror, hcandidates, hbest]
  have hcurrent : (pkg.current.any fun current => versionCmp v current ≤ 0) = false := by
    cases hcur : pkg.current with
    | none => rfl
    | some current =>
        have := hnew current hcur
        rw [Option.any_some, decide_eq_false_iff_not]
        omega
  cases hfind : (eligible policy prerelease pkg).find? fun c => c.version = v with
  | none =>
      have := List.find?_eq_none.mp hfind c hc
      simp [hcv] at this
  | some chosen => simp [decide, hproblem, hbest, hcurrent, hfind]

end Decide

/-- No three versions of the list clash. -/
def ClashFree (versions : List Bytes) : Prop :=
  ∀ a ∈ versions, ∀ w ∈ versions, ∀ z ∈ versions, ¬ Clash a w z

theorem ClashFree.mono {l versions : List Bytes} (h : ClashFree versions) (hsub : l ⊆ versions) :
    ClashFree l :=
  fun a ha w hw z hz => h a (hsub ha) w (hsub hw) z (hsub hz)

/-- `version max` finds an element that none exceeds. -/
def MaxFound (l : List Bytes) : Prop :=
  ∃ r, versionMax l = some r ∧ r ∈ l ∧ ∀ x ∈ l, versionCmp x r ≤ 0

/-- What `decide` proposes is eligible and exceeded by no eligible version, and it
proposes something if an eligible version is newer than the one there is. -/
structure ProposesNewest (policy : Policy) (prerelease : Bool) (pkg : Package) : Prop where
  newest : ∀ v, (decide policy prerelease pkg).newVersion = some v →
    v ∈ eligibleVersions policy prerelease pkg ∧
      ∀ x ∈ eligibleVersions policy prerelease pkg, versionCmp x v ≤ 0
  proposes : pkg.error = none → (∃ x ∈ eligibleVersions policy prerelease pkg,
      ∀ current, pkg.current = some current → 0 < versionCmp x current) →
    ∃ v, (decide policy prerelease pkg).newVersion = some v

theorem ClashFree.max {versions : List Bytes} (h : ClashFree versions) (hne : versions ≠ []) :
    MaxFound versions := by
  obtain ⟨r, hr⟩ := Option.isSome_iff_exists.mp (best_isSome versionCmp hne)
  exact ⟨r, hr, best_spec versionCmp_self versionCmp_neg ((transOn_iff versions).mpr h) hr⟩

/-- Of three versions that clash, the pass keeps one that another exceeds. -/
theorem Clash.max_exceeded {a w z : Bytes} (h : Clash a w z) :
    versionMax [a, z, w] = some w ∧ 0 < versionCmp z w := by
  obtain ⟨haw, hwz, haz⟩ := h.cmp
  have hza := versionCmp_neg a z
  have hwa := versionCmp_neg a w
  have hzw := versionCmp_neg w z
  have hkeep : ¬ 0 < versionCmp z a := by omega
  have htake : 0 < versionCmp w a := by omega
  exact ⟨by simp [versionMax, best, hkeep, htake], by omega⟩

/-- The pass finds a greatest version in every list exactly when none clash. -/
theorem maxFound_iff (versions : List Bytes) :
    (∀ l, l ≠ [] → l ⊆ versions → MaxFound l) ↔ ClashFree versions := by
  refine ⟨fun h a ha w hw z hz hclash => ?_, fun h l hne hsub => (h.mono hsub).max hne⟩
  obtain ⟨hmax, hexceeds⟩ := hclash.max_exceeded
  obtain ⟨r, hr, -, hle⟩ := h [a, z, w] (List.cons_ne_nil _ _) (by simp [ha, hw, hz])
  cases hmax.symm.trans hr
  have hz' := hle z (by simp)
  omega

theorem ClashFree.proposesNewest {policy : Policy} {prerelease : Bool} {pkg : Package}
    (hfree : ClashFree (pkg.current.toList ++ eligibleVersions policy prerelease pkg)) :
    ProposesNewest policy prerelease pkg := by
  have heligible : ClashFree (eligibleVersions policy prerelease pkg) :=
    hfree.mono (List.subset_append_right _ _)
  constructor
  · intro v hv
    obtain ⟨hbest, -⟩ := of_decide hv
    exact best_spec versionCmp_self versionCmp_neg ((transOn_iff _).mpr heligible) hbest
  · rintro herror ⟨x, hx, hnew⟩
    obtain ⟨r, hr, hmem, hmax⟩ := heligible.max (List.ne_nil_of_mem hx)
    refine ⟨r, decide_of_best herror hr ?_ hmem⟩
    intro current hcurrent
    -- otherwise x ≤ r ≤ current
    by_contra hle
    have hin : current ∈ pkg.current.toList ++ eligibleVersions policy prerelease pkg :=
      List.mem_append_left _ (by simp [hcurrent])
    have hdown := (transOn_iff _).mpr hfree x (List.mem_append_right _ hx) r
      (List.mem_append_right _ hmem) current hin (hmax x hx) (by omega)
    have hup := hnew current hcurrent
    omega

/-- Every version is admitted. -/
def openPolicy : Policy := ⟨fun _ => true, fun _ => false, id⟩

/-- A package that is new and has the versions as its candidates. -/
def newPackage (l : List Bytes) : Package :=
  { current := none, prerelease := false, every := none, error := none
    candidates := l.map fun v => ⟨v, false, none⟩ }

theorem eligibleVersions_newPackage (l : List Bytes) :
    eligibleVersions openPolicy false (newPackage l) = l := by
  simp [eligibleVersions, eligible, tooYoung, allowed, newPackage, openPolicy, List.filter_map,
    Function.comp_def]

/-- `decide` proposes a newest version of every package exactly when none clash. -/
theorem proposesNewest_iff (versions : List Bytes) :
    (∀ (policy : Policy) (prerelease : Bool) (pkg : Package),
      pkg.current.toList ++ eligibleVersions policy prerelease pkg ⊆ versions →
      ProposesNewest policy prerelease pkg) ↔ ClashFree versions := by
  refine ⟨fun h a ha w hw z hz hclash => ?_, fun h policy prerelease pkg hsub =>
    (h.mono hsub).proposesNewest⟩
  obtain ⟨hmax, hexceeds⟩ := hclash.max_exceeded
  have heligible := eligibleVersions_newPackage [a, z, w]
  have hpropose := h openPolicy false (newPackage [a, z, w])
    (by rw [heligible]; simp [newPackage, ha, hw, hz])
  have hnew : (decide openPolicy false (newPackage [a, z, w])).newVersion = some w := by
    apply decide_of_best rfl _ (fun _ hcurrent => by cases hcurrent)
    · rw [heligible]
      simp
    · rw [heligible]
      exact hmax
  have hz' := (hpropose.newest w hnew).2 z (by rw [heligible]; simp)
  omega

/-- `version cmp` is reflexive and antisymmetric. It orders a set of versions,
`version max` finds a greatest version in every list of them, and `decide`
proposes a newest eligible one for every package with such versions, each exactly
when no three of them clash. Of the documented chain, the version with a zero
more is above the one with `.post1`, not below. -/
theorem version_order_iff (versions : List Bytes) :
    (∀ a, versionCmp a a = 0) ∧ (∀ a b, versionCmp a b = -versionCmp b a) ∧
    (TransOn versionCmp versions ↔ ClashFree versions) ∧
    (∀ v, BaseVersion v →
      versionCmp (v ++ ascii "rc1") v = -1 ∧ versionCmp v (v ++ ascii ".0") = 0 ∧
        versionCmp v (v ++ ascii ".post1") = -1 ∧
        versionCmp (v ++ ascii ".post1") (v ++ ascii ".1") = -1 ∧
        versionCmp (v ++ ascii ".0") (v ++ ascii ".post1") = 1) ∧
    ((∀ l, l ≠ [] → l ⊆ versions → MaxFound l) ↔ ClashFree versions) ∧
    ((∀ (policy : Policy) (prerelease : Bool) (pkg : Package),
      pkg.current.toList ++ eligibleVersions policy prerelease pkg ⊆ versions →
      ProposesNewest policy prerelease pkg) ↔ ClashFree versions) :=
  ⟨versionCmp_self, fun a b => versionCmp_neg b a, transOn_iff versions, fun _ h => h.chain,
    maxFound_iff versions, proposesNewest_iff versions⟩

/-- The documented chain goes round: 1.0.0 is 1.0, which is below 1.0.post1, which
is below 1.0.0, and `version max` keeps the second of them. -/
theorem post_release_below_zero :
    versionCmp (ascii "1.0.0") (ascii "1.0") = 0 ∧
      versionCmp (ascii "1.0") (ascii "1.0.post1") = -1 ∧
      versionCmp (ascii "1.0.0") (ascii "1.0.post1") = 1 ∧
      versionMax [ascii "1.0", ascii "1.0.0", ascii "1.0.post1"] = some (ascii "1.0.post1") := by
  decide

end Repkgs.Uptrack
