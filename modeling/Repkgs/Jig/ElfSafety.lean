import Repkgs.Jig.Elf
import Repkgs.Lib.Failing

/-!
# Hostile ELF files

Every loop of `FixElf` ends, and its accesses are guarded, whatever the offsets in the
file are, with three exceptions: the probe for a stub header takes a `substr` at an
offset no check has compared with the size of the file, `fs::exists` throws when it
cannot tell whether a NEEDED is in a directory, and offsets of strings, symbols and
program headers are added up before anything looks at them.
-/

namespace Repkgs.Jig.Elf

open Lib

variable {image ehdr : Bytes} {sections : List Section}

theorem sectionEnd_le (image : Bytes) (s : Section) : sectionEnd image s ≤ image.length := by
  rw [sectionEnd]
  split_ifs <;> omega

theorem dynEntries_ends (image : Bytes) (dynamic : Section) :
    ∃ dyns, dynEntries image dynamic = some dyns := by
  have hend := sectionEnd_le image dynamic
  refine walk_of_measure (fun off => sectionEnd image dynamic - off) (fun off a next hvisit => ?_)
    (by omega)
  rw [visitDyn] at hvisit
  split_ifs at hvisit with hoff
  cases hread : readRaw image off 16 with
  | none => rw [hread] at hvisit; cases hvisit
  | some dyn =>
      rw [hread] at hvisit
      dsimp only at hvisit
      split_ifs at hvisit
      obtain ⟨-, rfl⟩ := Prod.mk.inj (Option.some.inj hvisit)
      omega

theorem verneeds_ends (hsize : image.length < 2 ^ 63) (sections : List Section) :
    ∃ vers, verneeds image sections = some vers := by
  -- a chain of records only goes forward, and 0 is its end
  refine walk_of_measure (fun off => if off = 0 then 0 else image.length + 1 - off)
    (fun off a next hvisit => ?_) ?_
  · rw [visitVerneed] at hvisit
    split_ifs at hvisit with hzero
    obtain ⟨ent, hread, hnext⟩ := Option.map_eq_some_iff.mp hvisit
    obtain ⟨-, rfl⟩ := Prod.mk.inj hnext
    have hfits := (readRaw_eq_some.mp hread).1
    have hlt : field ent 12 4 < 2 ^ 32 := lt_of_lt_of_le (field_lt ent 12 4) (by norm_num)
    rw [if_neg hzero]
    by_cases hlast : field ent 12 4 = 0
    · rw [if_pos hlast, if_pos rfl]
      omega
    · rw [if_neg hlast, if_neg (by omega)]
      omega
  · split_ifs <;> omega

theorem atIndex_of_lt {α : Type*} {xs : List α} {i : Nat} (h : i < xs.length) :
    ∃ a ∈ xs, atIndex xs i = .ok a := by
  refine ⟨xs[i], List.getElem_mem h, ?_⟩
  rw [atIndex, List.getElem?_eq_getElem h]

theorem add64_ok_iff {a b : Nat} : (∃ r, add64 a b = .ok r) ↔ a + b < 2 ^ 64 := by
  unfold add64
  split_ifs with h
  · exact iff_of_true ⟨_, rfl⟩ h
  · exact iff_of_false (by rintro ⟨r, hr⟩; cases hr) h

theorem eq_of_add64 {a b r : Nat} (h : add64 a b = .ok r) : r = a + b := by
  unfold add64 at h
  split_ifs at h
  exact (Except.ok.inj h).symm

theorem bind_ok_iff {α β : Type} {x : Except Fault α} {f : α → Except Fault β} :
    (∃ r, (x >>= f) = .ok r) ↔ ∃ a, x = .ok a ∧ ∃ r, f a = .ok r := by
  cases x <;> simp [bind, Except.bind]

theorem map_ok_iff {α β : Type} {f : α → β} {x : Except Fault α} :
    (∃ r, x.map f = .ok r) ↔ ∃ a, x = .ok a := by
  cases x <;> simp [Except.map]

theorem stringsAt_ok_iff {dynstr : Nat} {entries : List (Nat × Nat)} :
    (∃ r, stringsAt image dynstr entries = .ok r) ↔ ∀ e ∈ entries, dynstr + e.2 < 2 ^ 64 := by
  rw [stringsAt, mapM_ok_iff]
  exact forall₂_congr fun e _ => map_ok_iff.trans add64_ok_iff

theorem runpathOf_ok_iff {dynstr : Nat} {dyns : List (Nat × Nat × Nat)} :
    (∃ r, runpathOf dynstr dyns = .ok r) ↔
      ∀ e ∈ tagged dyns [dtRunpath, dtRpath], dynstr + e.2 < 2 ^ 64 := by
  rw [runpathOf, map_ok_iff, mapM_ok_iff]
  exact forall₂_congr fun e _ => add64_ok_iff

/-- The strings that dynamic entries and version records point to have offsets. -/
def StringsPass (image : Bytes) (sections : List Section) : Prop :=
  ∀ dynamic dynstr dyns vers, dynamicTable sections = .ok (some (dynamic, dynstr)) →
    dynEntries image dynamic = some dyns → verneeds image sections = some vers →
    (∀ e ∈ tagged dyns [dtNeeded], dynstr.offset + e.2 < 2 ^ 64) ∧
      (∀ e ∈ tagged dyns [dtRunpath, dtRpath], dynstr.offset + e.2 < 2 ^ 64) ∧
      ∀ v ∈ vers, dynstr.offset + v.2 < 2 ^ 64

theorem dynamicTable_ok (sections : List Section) : ∃ table, dynamicTable sections = .ok table := by
  rw [dynamicTable]
  split
  · exact ⟨_, rfl⟩
  · split_ifs with hlink
    · exact ⟨_, rfl⟩
    · obtain ⟨dynstr, -, hat⟩ := atIndex_of_lt (not_le.mp hlink)
      rw [hat]
      exact ⟨_, rfl⟩

theorem readDynamic_ok_iff (hsize : image.length < 2 ^ 63) (sections : List Section) :
    (∃ info, readDynamic image sections = .ok info) ↔ StringsPass image sections := by
  obtain ⟨table, htable⟩ := dynamicTable_ok sections
  rw [readDynamic, StringsPass, htable]
  cases table with
  | none => exact iff_of_true ⟨_, rfl⟩ nofun
  | some pair =>
      obtain ⟨dynamic, dynstr⟩ := pair
      obtain ⟨dyns, hdyns⟩ := dynEntries_ends image dynamic
      obtain ⟨vers, hvers⟩ := verneeds_ends hsize sections
      change (∃ info, (ended (dynEntries image dynamic) >>= fun dyns => _) = .ok info) ↔ _
      rw [hdyns, hvers]
      change (∃ info, (stringsAt image dynstr.offset (tagged dyns [dtNeeded]) >>= fun names => _) =
        .ok info) ↔ _
      have hlast : ∀ names runpath, (∃ info, (stringsAt image dynstr.offset vers >>= fun files =>
          (.ok ⟨neededOf names files, dynstr.offset, runpath⟩ : Except Fault DynamicInfo)) =
            .ok info) ↔ ∀ v ∈ vers, dynstr.offset + v.2 < 2 ^ 64 := by
        intro names runpath
        rw [bind_ok_iff, ← @stringsAt_ok_iff image]
        exact exists_congr fun files => and_iff_left ⟨_, rfl⟩
      simp only [bind_ok_iff (x := stringsAt _ _ (tagged _ _)), bind_ok_iff (x := runpathOf _ _),
        hlast, exists_and_right, stringsAt_ok_iff, runpathOf_ok_iff]
      constructor
      · rintro hall _ _ _ _ heq hd hv
        cases heq
        cases hdyns.symm.trans hd
        cases hv
        exact hall
      · exact fun hall => hall dynamic dynstr dyns vers rfl hdyns rfl

theorem symbolTable_ok (sections : List Section) : ∃ table, symbolTable sections = .ok table ∧
    ∀ dynsym strtab, table = some (dynsym, strtab) → 24 ≤ dynsym.entsize := by
  rw [symbolTable]
  cases hdyn : ofType sections shtDynsym with
  | none => exact ⟨none, rfl, by simp⟩
  | some dynsym =>
      dsimp only
      split_ifs with hguard
      · exact ⟨none, rfl, by simp⟩
      · rw [not_or, not_lt, not_le] at hguard
        obtain ⟨strtab, -, hat⟩ := atIndex_of_lt hguard.2
        rw [hat]
        refine ⟨some (dynsym, strtab.offset), rfl, fun s off heq => ?_⟩
        obtain ⟨rfl, -⟩ := Prod.mk.inj (Option.some.inj heq)
        exact hguard.1

/-- The loop over the symbols comes through if every round it reaches does, and the step
to the next one does not overflow. -/
theorem overSymbols_ok_iff {α : Type} {stop entsize : Nat} {visit : Nat → Except Fault (Option α)}
    {sound ends : Nat → Prop} (hsound : ∀ off, (∃ r, visit off = .ok r) ↔ sound off)
    (hends : ∀ off r, visit off = .ok r → (ends off ↔ r ≠ none)) (hpos : 0 < entsize)
    {fuel off : Nat} (hfuel : stop - off < fuel) :
    (∃ r, overSymbols stop entsize visit fuel off = .ok r) ↔
      ∀ k, off + k * entsize < stop → (∀ j < k, ¬ ends (off + j * entsize)) →
        sound (off + k * entsize) ∧
          (¬ ends (off + k * entsize) → off + (k + 1) * entsize < 2 ^ 64) := by
  induction fuel generalizing off with
  | zero => omega
  | succ fuel ih =>
      rw [overSymbols]
      by_cases hoff : off < stop
      · rw [if_pos hoff]
        have hshift : ∀ k, off + (k + 1) * entsize = off + entsize + k * entsize := by
          intro k
          ring
        cases hvisit : visit off with
        | error f =>
            have hbad : ¬ sound off := by simp [← hsound, hvisit]
            refine iff_of_false (by simp [bind, Except.bind]) fun hall => hbad ?_
            simpa using (hall 0 (by simpa using hoff) (by simp)).1
        | ok found =>
            have hhere : sound off := (hsound off).mp ⟨found, hvisit⟩
            have hend := hends off found hvisit
            cases found with
            | some a =>
                have hstops : ends off := hend.mpr (by simp)
                refine iff_of_true ⟨some a, rfl⟩ fun k _ hbefore => ?_
                cases k with
                | zero => simp [hhere, hstops]
                | succ k => exact absurd (by simpa using hstops) (hbefore 0 (Nat.succ_pos k))
            | none =>
                have hgoes : ¬ ends off := by simp [hend]
                change (∃ r,
                  (add64 off entsize >>= overSymbols stop entsize visit fuel) = .ok r) ↔ _
                by_cases hsum : off + entsize < 2 ^ 64
                · rw [add64, if_pos hsum]
                  change (∃ r, overSymbols stop entsize visit fuel (off + entsize) = .ok r) ↔ _
                  rw [ih (by omega)]
                  constructor
                  · intro hall k hk hbefore
                    cases k with
                    | zero => simpa [hhere, hgoes] using hsum
                    | succ k =>
                        rw [hshift] at hk ⊢
                        rw [hshift (k + 1)]
                        refine hall k hk fun j hj => ?_
                        rw [← hshift]
                        exact hbefore (j + 1) (Nat.succ_lt_succ hj)
                  · intro hall k hk hbefore
                    have hnext := hall (k + 1) (by rwa [hshift]) fun j hj => by
                      cases j with
                      | zero => simpa using hgoes
                      | succ j =>
                          rw [hshift]
                          exact hbefore j (Nat.lt_of_succ_lt_succ hj)
                    rwa [hshift, hshift (k + 1)] at hnext
                · rw [add64, if_neg hsum]
                  refine iff_of_false (by simp [bind, Except.bind]) fun hall => hsum ?_
                  simpa using (hall 0 (by simpa using hoff) (by simp)).2 (by simpa using hgoes)
      · rw [if_neg hoff]
        exact iff_of_true ⟨none, rfl⟩ fun k hk => absurd hk (by omega)

/-- The symbols up to the one that ends the loop have names with offsets, and the step
from each to the next does not overflow. `ends` says which read ends it, for strings
that begin at some offset. -/
def SymbolsPass (image : Bytes) (sections : List Section) (ends : Nat → Option Bytes → Bool) :
    Prop :=
  ∀ dynsym strtab, symbolTable sections = .ok (some (dynsym, strtab)) →
    ∀ k, dynsym.offset + k * dynsym.entsize < sectionEnd image dynsym →
      (∀ j < k, ends strtab (readRaw image (dynsym.offset + j * dynsym.entsize) 24) = false) →
      (∀ sym, readRaw image (dynsym.offset + k * dynsym.entsize) 24 = some sym →
        strtab + field sym 0 4 < 2 ^ 64) ∧
      (ends strtab (readRaw image (dynsym.offset + k * dynsym.entsize) 24) = false →
        dynsym.offset + (k + 1) * dynsym.entsize < 2 ^ 64)

/-- `SymbolInside` ends at a symbol whose name begins inside. -/
def endsInside (start stop strtab : Nat) : Option Bytes → Bool
  | none => false
  | some sym => decide (start < strtab + field sym 0 4 ∧ strtab + field sym 0 4 < stop)

/-- `FindRelocStart` ends at the symbol it looks for, or behind the image. -/
def endsAtStart (image : Bytes) (strtab : Nat) : Option Bytes → Bool
  | none => true
  | some sym => cString image (strtab + field sym 0 4) == ascii "__reloc_start"

section Symbols

variable {α : Type} {visit : Nat → Option Bytes → Except Fault (Option α)}
  {ends : Nat → Option Bytes → Bool}

/-- What a round does with a symbol: it adds up the place of its name. -/
structure Visits (visit : Nat → Option Bytes → Except Fault (Option α))
    (ends : Nat → Option Bytes → Bool) : Prop where
  ok_iff : ∀ strtab read, (∃ r, visit strtab read = .ok r) ↔
    ∀ sym, read = some sym → strtab + field sym 0 4 < 2 ^ 64
  ends_iff : ∀ strtab read r, visit strtab read = .ok r → (ends strtab read = true ↔ r ≠ none)

theorem Visits.pass_iff (h : Visits visit ends) (image : Bytes) (sections : List Section) :
    (∃ r, searchSymbols image sections visit = .ok r) ↔ SymbolsPass image sections ends := by
  obtain ⟨table, htable, hentsize⟩ := symbolTable_ok sections
  rw [searchSymbols, SymbolsPass, htable]
  cases table with
  | none => exact iff_of_true ⟨none, rfl⟩ nofun
  | some pair =>
      obtain ⟨dynsym, strtab⟩ := pair
      have hend := sectionEnd_le image dynsym
      have hpos : 0 < dynsym.entsize := Nat.lt_of_lt_of_le (by decide) (hentsize _ _ rfl)
      refine (overSymbols_ok_iff (fun off => h.ok_iff strtab (readRaw image off 24))
        (fun off => h.ends_iff strtab (readRaw image off 24)) hpos (by omega)).trans ?_
      simp only [Bool.not_eq_true]
      constructor
      · rintro hall _ _ ⟨⟩
        exact hall
      · exact fun hall => hall dynsym strtab rfl

end Symbols

theorem visits_inside (image : Bytes) (start stop : Nat) :
    Visits (visitInside image start stop) (endsInside start stop) := by
  constructor
  · rintro strtab (- | sym)
    · exact iff_of_true ⟨none, rfl⟩ nofun
    · simp only [visitInside, map_ok_iff, add64_ok_iff, Option.some.injEq, forall_eq']
  · rintro strtab (- | sym) r hr
    · cases hr
      simp [endsInside]
    · obtain ⟨name, hname, rfl⟩ := map_eq_ok_iff.mp hr
      cases eq_of_add64 hname
      simp [endsInside]

theorem visits_start (image : Bytes) : Visits (visitStart image) (endsAtStart image) := by
  constructor
  · rintro strtab (- | sym)
    · exact iff_of_true ⟨_, rfl⟩ nofun
    · simp only [visitStart, map_ok_iff, add64_ok_iff, Option.some.injEq, forall_eq']
  · rintro strtab (- | sym) r hr
    · cases hr
      simp [endsAtStart]
    · obtain ⟨name, hname, rfl⟩ := map_eq_ok_iff.mp hr
      cases eq_of_add64 hname
      simp [endsAtStart]

/-- Looking for a name in the directories, and for libc beside it, gets an answer. -/
def Answers (h : Host) (name : Bytes) : List RunpathDir → Prop
  | [] => True
  | d :: rest =>
      match h.pathExists (appendPath d.dir name) with
      | none => False
      | some true => (h.pathExists (appendPath d.dir libcName)).isSome
      | some false => Answers h name rest

variable {h : Host} {path : Bytes} {f : Fault} {ctx : FixupContext}

theorem place_ok_iff {runpath : List RunpathDir} {lib : Needed} :
    (∃ p, place h runpath lib = .ok p) ↔
      (isOutside lib.name = false → Answers h lib.name runpath) := by
  have hfind : ∀ i, (∃ p, (findDir h lib.name runpath i >>= placeIn h) = .ok p) ↔
      Answers h lib.name runpath := by
    induction runpath with
    | nil => exact fun i => ⟨fun _ => trivial, fun _ => ⟨.missing, rfl⟩⟩
    | cons d rest ih =>
        intro i
        rw [findDir, Answers, Host.asks]
        cases hname : h.pathExists (appendPath d.dir lib.name) with
        | none => simp [bind, Except.bind]
        | some found =>
            cases found with
            | false => exact ih (i + 1)
            | true =>
                have hin : placeIn h (some (i, d)) = (h.asks (appendPath d.dir libcName) >>=
                  fun libc => .ok (if libc then .inLibc i d else .direct i d)) := rfl
                simp only [bind, Except.bind, if_true, hin, Host.asks]
                cases h.pathExists (appendPath d.dir libcName) <;> simp
  rw [place]
  cases isOutside lib.name with
  | true => simp
  | false =>
      rw [if_neg (by simp), hfind 0]
      simp

/-- The questions `FixRunpath` asks about this image have answers. -/
def NeededAnswered (h : Host) (ctx : FixupContext) (path image : Bytes)
    (sections : List Section) : Prop :=
  ∀ info, readDynamic image sections = .ok info →
    ∀ offset, info.runpathOffset = some offset → ∀ lib ∈ info.needed, isOutside lib.name = false →
      Answers h lib.name (relativizeRunpath h ctx (cString image offset) (parentPath path))

/-- The program header at the `k`-th place has the address. -/
def LoadsAt (image ehdr : Bytes) (vaddr k : Nat) (phdr : Bytes) : Prop :=
  readPhdr image ehdr k = some phdr ∧ Loads vaddr phdr

/-- The program headers up to the first that has the address have offsets, and so has the
place that header gives to the address, inside of the file. -/
def HeadersPass (image ehdr : Bytes) (vaddr : Nat) : Prop :=
  ∀ k < ePhnum ehdr, (∀ j < k, ∀ phdr, ¬ LoadsAt image ehdr vaddr j phdr) →
    ePhoff ehdr + k * ePhentsize ehdr < 2 ^ 64 ∧
      ∀ phdr, LoadsAt image ehdr vaddr k phdr →
        pOffset phdr + (vaddr - pVaddr phdr) ≤ image.length

theorem fileOffsetFrom_ok_iff (hsize : image.length < 2 ^ 63) {vaddr n i : Nat} :
    (∃ r, fileOffsetFrom image ehdr vaddr n i = .ok r ∧ ∀ off, r = some off → off ≤ image.length) ↔
      ∀ k < n, (∀ j < k, ∀ phdr, ¬ LoadsAt image ehdr vaddr (i + j) phdr) →
        ePhoff ehdr + (i + k) * ePhentsize ehdr < 2 ^ 64 ∧
          ∀ phdr, LoadsAt image ehdr vaddr (i + k) phdr →
            pOffset phdr + (vaddr - pVaddr phdr) ≤ image.length := by
  induction n generalizing i with
  | zero => simp [fileOffsetFrom]
  | succ n ih =>
      rw [fileOffsetFrom]
      by_cases hsum : ePhoff ehdr + i * ePhentsize ehdr < 2 ^ 64
      · rw [add64, if_pos hsum]
        simp only [bind, Except.bind]
        cases hhere : (readPhdr image ehdr i).filter (decide <| Loads vaddr ·) with
        | some phdr =>
            have hload : LoadsAt image ehdr vaddr i phdr := by
              simpa [LoadsAt, Option.filter_eq_some_iff] using hhere
            rw [readPhdr] at hhere
            rw [hhere]
            dsimp only
            constructor
            · rintro ⟨r, hr, hin⟩ k - hbefore
              cases k with
              | zero =>
                  obtain ⟨off, hoff, rfl⟩ := map_eq_ok_iff.mp hr
                  cases eq_of_add64 hoff
                  refine ⟨hsum, fun phdr' hload' => ?_⟩
                  cases hload.1.symm.trans hload'.1
                  exact hin _ rfl
              | succ k => exact absurd hload (hbefore 0 (Nat.succ_pos k) phdr)
            · intro hall
              have hin := (hall 0 (Nat.succ_pos n) (by simp)).2 phdr hload
              refine ⟨some (pOffset phdr + (vaddr - pVaddr phdr)), ?_, ?_⟩
              · rw [add64, if_pos (by omega)]
                rfl
              · rintro off ⟨⟩
                exact hin
        | none =>
            have hskip : ∀ phdr, ¬ LoadsAt image ehdr vaddr i phdr := by
              rintro phdr ⟨hread, hloads⟩
              rw [hread, Option.filter_some_pos (by simpa using hloads)] at hhere
              cases hhere
            rw [readPhdr] at hhere
            rw [hhere]
            dsimp only
            rw [ih]
            constructor
            · intro hall k hk hbefore
              cases k with
              | zero => exact ⟨hsum, fun phdr hload => absurd hload (hskip phdr)⟩
              | succ k =>
                  rw [← Nat.add_assoc, Nat.add_right_comm]
                  refine hall k (Nat.lt_of_succ_lt_succ hk) fun j hj => ?_
                  rw [Nat.add_right_comm]
                  exact hbefore (j + 1) (Nat.succ_lt_succ hj)
            · intro hall k hk hbefore
              rw [Nat.add_right_comm, Nat.add_assoc]
              refine hall (k + 1) (Nat.succ_lt_succ hk) fun j hj => ?_
              cases j with
              | zero => exact hskip
              | succ j =>
                  rw [← Nat.add_assoc, Nat.add_right_comm]
                  exact hbefore j (Nat.lt_of_succ_lt_succ hj)
      · rw [add64, if_neg hsum]
        refine iff_of_false (by rintro ⟨r, hr, -⟩; cases hr) fun hall => hsum ?_
        simpa using (hall 0 (Nat.succ_pos n) (by simp)).1

theorem hasStubHeader_ok_iff (hsize : image.length < 2 ^ 63) :
    (∃ b, hasStubHeader image ehdr = .ok b) ↔
      (relocStubHeader ≤ eEntry ehdr → HeadersPass image ehdr (eEntry ehdr - relocStubHeader)) := by
  rw [hasStubHeader]
  by_cases hentry : eEntry ehdr < relocStubHeader
  · rw [if_pos hentry]
    exact iff_of_true ⟨false, rfl⟩ fun hle => absurd hentry (not_lt.mpr hle)
  · have hfrom := @fileOffsetFrom_ok_iff image ehdr hsize (eEntry ehdr - relocStubHeader)
      (ePhnum ehdr) 0
    simp only [Nat.zero_add] at hfrom
    rw [if_neg hentry, HeadersPass, ← hfrom, bind_ok_iff]
    simp only [not_lt.mp hentry, forall_const]
    refine exists_congr fun found => and_congr_right fun _ => ?_
    cases found with
    | none => exact iff_of_true ⟨false, rfl⟩ nofun
    | some off =>
        simp only [map_ok_iff, substr, Option.some.injEq, forall_eq']
        by_cases hin : image.length < off
        · simp [hin]
        · simp [hin, not_lt.mp hin]

/-- Looking for the entry of the stub comes through. -/
def StartPass (image ehdr : Bytes) (sections : List Section) : Prop :=
  (relocStubHeader ≤ eEntry ehdr → HeadersPass image ehdr (eEntry ehdr - relocStubHeader)) ∧
    (hasStubHeader image ehdr = .ok false → SymbolsPass image sections (endsAtStart image))

theorem fixInterp_ok_iff {p : Progress} (hsize : p.image.length < 2 ^ 63) :
    (∃ r, fixInterp h ctx path ehdr sections p = .ok r) ↔ StartPass p.image ehdr sections := by
  rw [StartPass, ← hasStubHeader_ok_iff hsize, fixInterp, bind_ok_iff]
  simp only [Except.ok.injEq, exists_eq', and_true]
  rw [findRelocStart, bind_ok_iff]
  cases hasStubHeader p.image ehdr with
  | error f => simp
  | ok stub =>
      cases stub with
      | true => simp
      | false =>
          simp only [Except.ok.injEq, Bool.false_eq_true, if_false, exists_eq_left', exists_eq',
            forall_const, true_and]
          exact map_ok_iff.trans ((visits_start p.image).pass_iff p.image sections)

theorem planRunpath_ok_iff (hsize : image.length < 2 ^ 63) :
    (∃ r, planRunpath h ctx path image sections = .ok r) ↔
      StringsPass image sections ∧ NeededAnswered h ctx path image sections := by
  rw [planRunpath, bind_ok_iff, ← readDynamic_ok_iff hsize, NeededAnswered]
  cases readDynamic image sections with
  | error f => simp
  | ok info =>
      simp only [Except.ok.injEq, exists_eq_left', exists_eq', true_and, forall_eq']
      cases info.runpathOffset with
      | none => exact iff_of_true ⟨none, rfl⟩ nofun
      | some offset =>
          simp only [map_ok_iff, mapM_ok_iff, place_ok_iff, Option.some.injEq, forall_eq']

theorem length_pointNeeded (image : Bytes) (directs : List Direct) (str : Nat) :
    (pointNeeded image directs str).length = image.length := by
  induction directs generalizing image str with
  | nil => rfl
  | cons dep rest ih =>
      have hvers : ∀ (offs : List Nat) (img : Bytes),
          (offs.foldl (fun img off => writeNat img off 4 str) img).length = img.length := by
        intro offs
        induction offs with
        | nil => exact fun _ => rfl
        | cons off offs ih =>
            intro img
            rw [List.foldl_cons, ih, (sameOutside_writeNat img off 4 str).length_eq]
      rw [pointNeeded, ih, hvers, (sameOutside_writeNat image dep.lib.valOffset 8 str).length_eq]

theorem length_relinked {r : Relink} {image' : Bytes} (h : relinked image r = some image') :
    image'.length = image.length := by
  obtain ⟨padded, hpadded, rfl⟩ := Option.map_eq_some_iff.mp h
  rw [length_pointNeeded, (sameOutside_writePadded hpadded).length_eq]

/-- `FixRunpath` comes to its end and, if it goes on, leaves an image with a property. -/
theorem writeRunpath_iff (r : Relink) (keeps : Bytes → Prop) :
    (∃ q, writeRunpath image sections r = .ok q ∧ (q.1 = true → keeps q.2.image)) ↔
      (r.plan.blob = r.old → keeps image) ∧
      (r.plan.blob ≠ r.old →
        SymbolsPass image sections (endsInside r.offset (r.offset + r.old.length)) ∧
        (symbolInside image sections r.offset (r.offset + r.old.length) = .ok none →
          ∀ image', relinked image r = some image' → keeps image')) := by
  rw [writeRunpath]
  by_cases hsame : r.plan.blob = r.old
  · simp [hsame]
  · rw [if_neg hsame, ← (visits_inside image r.offset _).pass_iff, ← symbolInside]
    cases symbolInside image sections r.offset (r.offset + r.old.length) with
    | error f => simp [hsame, Except.map]
    | ok inside =>
        cases inside with
        | some name => simp [hsame, Except.map]
        | none => cases relinked image r <;> simp [hsame, Except.map]

/-- What `FixElf` asks of a file that it rewrites. Behind a RUNPATH that was replaced the
program headers and symbols are those of the image with the new strings. -/
structure Passes (h : Host) (ctx : FixupContext) (path image ehdr : Bytes)
    (sections : List Section) : Prop where
  strings : StringsPass image sections
  answered : NeededAnswered h ctx path image sections
  inside : ∀ r, planRunpath h ctx path image sections = .ok (some r) → r.plan.blob ≠ r.old →
    SymbolsPass image sections (endsInside r.offset (r.offset + r.old.length))
  kept : ∀ found, planRunpath h ctx path image sections = .ok found →
    (∀ r, found = some r → r.plan.blob = r.old) → StartPass image ehdr sections
  replaced : ∀ r, planRunpath h ctx path image sections = .ok (some r) → r.plan.blob ≠ r.old →
    symbolInside image sections r.offset (r.offset + r.old.length) = .ok none →
    ∀ image', relinked image r = some image' → StartPass image' ehdr sections

theorem length_fixRunpath {q : Bool × Progress}
    (hrun : fixRunpath h ctx path image sections = .ok q) : q.2.image.length = image.length := by
  obtain ⟨found, -, hrun⟩ := bind_eq_ok_iff.mp hrun
  cases found with
  | none =>
      cases hrun
      rfl
  | some r =>
      dsimp only at hrun
      rw [writeRunpath] at hrun
      split_ifs at hrun
      · cases hrun
        rfl
      · obtain ⟨inside, -, rfl⟩ := map_eq_ok_iff.mp hrun
        cases inside with
        | some name => rfl
        | none =>
            cases hrelinked : relinked image r with
            | none => rfl
            | some image' => exact length_relinked hrelinked

/-- `FixElf` behind its checks comes to its end. -/
theorem rewrites_ok_iff (hsize : image.length < 2 ^ 63) :
    (∃ r, rewrites h ctx path image ehdr = .ok r) ↔
      Passes h ctx path image ehdr (readSections image ehdr) := by
  have hinterp : ∀ q : Bool × Progress, q.2.image.length = image.length →
      ((∃ r, (if q.1 = false then .ok (finish h path (false, q.2))
        else (fixInterp h ctx path ehdr (readSections image ehdr) q.2).map (finish h path)) =
          .ok r) ↔ (q.1 = true → StartPass q.2.image ehdr (readSections image ehdr))) := by
    rintro ⟨go, p⟩ hlength
    cases go with
    | false => exact iff_of_true ⟨_, rfl⟩ nofun
    | true =>
        have hiff := @fixInterp_ok_iff ehdr (readSections image ehdr) h path ctx p (hlength ▸ hsize)
        exact map_ok_iff.trans (hiff.trans ⟨fun hstart _ => hstart, fun hstart => hstart rfl⟩)
  have hruns : (∃ r, rewrites h ctx path image ehdr = .ok r) ↔
      ∃ q, fixRunpath h ctx path image (readSections image ehdr) = .ok q ∧
        (q.1 = true → StartPass q.2.image ehdr (readSections image ehdr)) := by
    rw [rewrites, bind_ok_iff]
    exact exists_congr fun q => and_congr_right fun hq => hinterp q (length_fixRunpath hq)
  rw [hruns, fixRunpath]
  cases hplan : planRunpath h ctx path image (readSections image ehdr) with
  | error f =>
      refine iff_of_false (by rintro ⟨q, hq, -⟩; cases hq) fun hpass => ?_
      obtain ⟨r, hr⟩ := (planRunpath_ok_iff hsize).mpr ⟨hpass.strings, hpass.answered⟩
      cases hplan.symm.trans hr
  | ok found =>
      obtain ⟨hstrings, hanswered⟩ := (planRunpath_ok_iff hsize).mp ⟨found, hplan⟩
      have hfound : ∀ {r}, planRunpath h ctx path image (readSections image ehdr) = .ok r →
          r = found := fun hr => Except.ok.inj (hr.symm.trans hplan)
      cases found with
      | none =>
          constructor
          · rintro ⟨q, hq, hstart⟩
            cases hq
            refine ⟨hstrings, hanswered, fun r hr => ?_, fun _ _ _ => hstart rfl, fun r hr => ?_⟩
            · cases hfound hr
            · cases hfound hr
          · intro hpass
            exact ⟨_, rfl, fun _ => hpass.kept none hplan fun r hr => by cases hr⟩
      | some r =>
          refine (writeRunpath_iff r fun image' =>
            StartPass image' ehdr (readSections image ehdr)).trans
              ⟨fun hwrites => ?_, fun hpass => ?_⟩
          · refine ⟨hstrings, hanswered, fun r' hr => ?_, fun found hr hkept => ?_,
              fun r' hr => ?_⟩
            · cases hfound hr
              exact fun hne => (hwrites.2 hne).1
            · cases hfound hr
              exact hwrites.1 (hkept r rfl)
            · cases hfound hr
              exact fun hne => (hwrites.2 hne).2
          · refine ⟨fun hsame => hpass.kept (some r) hplan ?_, fun hne =>
              ⟨hpass.inside r hplan hne, hpass.replaced r hplan hne⟩⟩
            rintro r' ⟨⟩
            exact hsame

/-- No loop goes on without an end, and nothing shifts by too much. -/
def Tame {α : Type} (x : Except Fault α) : Prop :=
  ∀ f, x = .error f → f = .filesystemError ∨ f = .outOfRange ∨ f = .overflow

namespace Tame

variable {α β : Type} {x : Except Fault α}

theorem ok (a : α) : Tame (.ok a : Except Fault α) := nofun

theorem bind {f : α → Except Fault β} (hx : Tame x) (hf : ∀ a, x = .ok a → Tame (f a)) :
    Tame (x >>= f) := by
  intro e he
  rcases bind_eq_error_iff.mp he with he | ⟨a, ha, he⟩
  · exact hx e he
  · exact hf a ha e he

theorem map {f : α → β} (hx : Tame x) : Tame (x.map f) := by
  intro e he
  cases x with
  | error e' =>
      cases he
      exact hx e rfl
  | ok a => cases he

theorem mapM {g : α → Except Fault β} {xs : List α} (h : ∀ a ∈ xs, Tame (g a)) :
    Tame (xs.mapM g) := by
  intro e he
  obtain ⟨a, ha, he⟩ := exists_of_mapM_eq_error he
  exact h a ha e he

theorem add64 (a b : Nat) : Tame (Elf.add64 a b) := by
  intro e he
  unfold Elf.add64 at he
  split_ifs at he
  cases he
  exact Or.inr (Or.inr rfl)

theorem asks (h : Host) (path : Bytes) : Tame (h.asks path) := by
  intro e he
  unfold Host.asks at he
  split at he <;> cases he
  exact Or.inl rfl

theorem place (h : Host) (runpath : List RunpathDir) (lib : Needed) :
    Tame (Elf.place h runpath lib) := by
  have hfind : ∀ i, Tame (findDir h lib.name runpath i) := by
    induction runpath with
    | nil => exact fun i => ok _
    | cons d rest ih =>
        intro i
        refine (asks h _).bind fun found _ => ?_
        split_ifs
        · exact ok _
        · exact ih (i + 1)
  unfold Elf.place
  split_ifs
  · exact ok _
  · refine (hfind 0).bind fun found _ => ?_
    cases found with
    | none => exact ok _
    | some d => exact (asks h _).bind fun _ _ => ok _

theorem overSymbols {stop entsize : Nat} {visit : Nat → Except Fault (Option α)}
    (hvisit : ∀ off, Tame (visit off)) (hpos : 0 < entsize) {fuel off : Nat}
    (hfuel : stop - off < fuel) : Tame (Elf.overSymbols stop entsize visit fuel off) := by
  induction fuel generalizing off with
  | zero => omega
  | succ fuel ih =>
      rw [Elf.overSymbols]
      split_ifs with hoff
      · refine (hvisit off).bind fun found _ => ?_
        cases found with
        | some a => exact ok _
        | none =>
            refine (add64 off entsize).bind fun next hnext => ih ?_
            cases eq_of_add64 hnext
            omega
      · exact ok _

/-- The loops over the symbols end: an entry has at least 24 bytes. -/
theorem searchSymbols {visit : Nat → Option Bytes → Except Fault (Option α)}
    (hvisit : ∀ strtab read, Tame (visit strtab read))
    (image : Bytes) (sections : List Section) : Tame (Elf.searchSymbols image sections visit) := by
  obtain ⟨table, htable, hentsize⟩ := symbolTable_ok sections
  rw [Elf.searchSymbols, htable]
  cases table with
  | none => exact ok _
  | some pair =>
      have hend := sectionEnd_le image pair.1
      have hpos := hentsize pair.1 pair.2 rfl
      exact overSymbols (fun off => hvisit pair.2 _) (by omega) (by omega)

theorem hasStubHeader (image ehdr : Bytes) : Tame (Elf.hasStubHeader image ehdr) := by
  have hoffset : ∀ vaddr n i, Tame (fileOffsetFrom image ehdr vaddr n i) := by
    intro vaddr n
    induction n with
    | zero => exact fun i => ok _
    | succ n ih =>
        intro i
        refine (add64 _ _).bind fun off _ => ?_
        split
        · exact (add64 _ _).map
        · exact ih (i + 1)
  unfold Elf.hasStubHeader
  split_ifs
  · exact ok _
  · refine (hoffset _ _ _).bind fun found _ => ?_
    cases found with
    | none => exact ok _
    | some off =>
        intro e he
        simp only [substr] at he
        split_ifs at he <;> cases he
        exact Or.inr (Or.inl rfl)

end Tame

/-- The file is an ELF that `FixElf` rewrites. -/
def Accepted (image ehdr : Bytes) : Prop :=
  isElf64LittleEndian image = true ∧ readRaw image 0 ehdrSize = some ehdr ∧ isLinked ehdr = true

theorem fixElf_cases (h : Host) (ctx : FixupContext) (path image : Bytes) :
    (∃ r, fixElf h ctx path image = .ok r ∧ ∀ ehdr, ¬ Accepted image ehdr) ∨
      ∃ ehdr, Accepted image ehdr ∧
        fixElf h ctx path image = (rewrites h ctx path image ehdr).map some := by
  cases helf : isElf64LittleEndian image with
  | false =>
      refine Or.inl ⟨none, if_pos helf, fun ehdr hacc => ?_⟩
      cases helf.symm.trans hacc.1
  | true =>
      have hno : ¬ isElf64LittleEndian image = false := by simp [helf]
      cases hread : readRaw image 0 ehdrSize with
      | none =>
          refine Or.inl ⟨some ⟨none, 0⟩, ?_, fun ehdr hacc => ?_⟩
          · rw [fixElf, if_neg hno, hread]
          · cases hread.symm.trans hacc.2.1
      | some ehdr =>
          cases hlinked : isLinked ehdr with
          | false =>
              refine Or.inl ⟨some ⟨none, 0⟩, ?_, fun ehdr' hacc => ?_⟩
              · rw [fixElf, if_neg hno, hread]
                exact if_pos hlinked
              · obtain rfl := Option.some.inj (hread.symm.trans hacc.2.1)
                cases hlinked.symm.trans hacc.2.2
          | true =>
              refine Or.inr ⟨ehdr, ⟨helf, hread, hlinked⟩, ?_⟩
              rw [fixElf, if_neg hno, hread]
              exact if_neg (by simp [hlinked])

theorem tame_rewrites (hsize : image.length < 2 ^ 63) :
    Tame (rewrites h ctx path image ehdr) := by
  have hdynamic : Tame (readDynamic image (readSections image ehdr)) := by
    obtain ⟨table, htable⟩ := dynamicTable_ok (readSections image ehdr)
    rw [readDynamic, htable]
    cases table with
    | none => exact .ok _
    | some pair =>
        obtain ⟨dyns, hdyns⟩ := dynEntries_ends image pair.1
        obtain ⟨vers, hvers⟩ := verneeds_ends hsize (readSections image ehdr)
        have hstrings : ∀ entries, Tame (stringsAt image pair.2.offset entries) :=
          fun entries => .mapM fun e _ => (Tame.add64 _ _).map
        change Tame (ended (dynEntries image pair.1) >>= fun dyns => _)
        rw [hdyns, hvers]
        exact (hstrings _).bind fun _ _ => ((Tame.mapM fun e _ => .add64 _ _).map).bind fun _ _ =>
          (hstrings _).bind fun _ _ => .ok _
  have hplan : Tame (planRunpath h ctx path image (readSections image ehdr)) := by
    refine hdynamic.bind fun info _ => ?_
    split
    · exact .ok _
    · exact (Tame.mapM fun lib _ => .place h _ lib).map
  have hrunpath : Tame (fixRunpath h ctx path image (readSections image ehdr)) := by
    refine hplan.bind fun found _ => ?_
    cases found with
    | none => exact .ok _
    | some r =>
        change Tame (writeRunpath image (readSections image ehdr) r)
        unfold writeRunpath
        split_ifs
        · exact .ok _
        · refine (Tame.searchSymbols (fun strtab read => ?_) _ _).map
          cases read with
          | none => exact .ok _
          | some sym => exact (Tame.add64 _ _).map
  refine hrunpath.bind fun q _ => ?_
  obtain ⟨go, p⟩ := q
  cases go with
  | false => exact .ok _
  | true =>
      refine (Tame.bind ?_ fun _ _ => .ok _).map
      refine (Tame.hasStubHeader _ _).bind fun stub _ => ?_
      split_ifs
      · exact .ok _
      · refine (Tame.searchSymbols (fun strtab read => ?_) _ _).map
        cases read with
        | none => exact .ok _
        | some sym => exact (Tame.add64 _ _).map

/-- `FixElf` finishes exactly if the file passes: `fs::exists` answers what it is asked
about the NEEDED names, the offsets it adds up for strings, symbols and program headers
fit into 64 bits as far as it goes through them, and the bytes in front of the entry point
are not said to lie behind the end of the file. Whatever the file is, no loop goes on. -/
theorem fixElf_finishes_iff (h : Host) (ctx : FixupContext) (path image : Bytes)
    (hsize : image.length < 2 ^ 63) :
    ((∃ r, fixElf h ctx path image = .ok r) ↔ ∀ ehdr, Accepted image ehdr →
      Passes h ctx path image ehdr (readSections image ehdr)) ∧
    ∀ f, fixElf h ctx path image = .error f →
      f = .filesystemError ∨ f = .outOfRange ∨ f = .overflow := by
  rcases fixElf_cases h ctx path image with ⟨r, hr, hno⟩ | ⟨ehdr, hacc, heq⟩
  · refine ⟨⟨fun _ ehdr hacc => absurd hacc (hno ehdr), fun _ => ⟨r, hr⟩⟩, fun f hf => ?_⟩
    rw [hr] at hf
    cases hf
  · rw [heq, map_ok_iff, rewrites_ok_iff hsize]
    refine ⟨⟨fun hok ehdr' hacc' => ?_, fun hall => hall ehdr hacc⟩, (tame_rewrites hsize).map⟩
    obtain rfl : ehdr = ehdr' := Option.some.inj (hacc.2.1.symm.trans hacc'.2.1)
    exact hok

namespace SampleElf

/-- A header of an ET_DYN file with one program header and the sections behind it. -/
def header (entry shnum : Nat) : Bytes :=
  [0x7f] ++ ascii "ELF" ++ [2, 1] ++ List.replicate 10 0 ++ leBytes 2 3 ++ List.replicate 6 0 ++
    leBytes 8 entry ++ leBytes 8 64 ++ leBytes 8 120 ++ List.replicate 6 0 ++ leBytes 2 56 ++
    leBytes 2 1 ++ leBytes 2 64 ++ leBytes 2 shnum ++ leBytes 2 0

def phdr (type offset vaddr filesz : Nat) : Bytes :=
  leBytes 4 type ++ leBytes 4 0 ++ leBytes 8 offset ++ leBytes 8 vaddr ++ leBytes 8 0 ++
    leBytes 8 filesz ++ leBytes 8 0 ++ leBytes 8 0

def shdr (type offset size link entsize : Nat) : Bytes :=
  leBytes 4 0 ++ leBytes 4 type ++ List.replicate 16 0 ++ leBytes 8 offset ++ leBytes 8 size ++
    leBytes 4 link ++ leBytes 4 0 ++ leBytes 8 0 ++ leBytes 8 entsize

def dyn (tag val : Nat) : Bytes := leBytes 8 tag ++ leBytes 8 val

def context : FixupContext where
  prefixDir := ascii "/nix/store/p"
  dest := ascii "/nix/store/p"
  ownLibDirs := []
  sdk := []

def binary : Bytes := ascii "/nix/store/p/bin/a"

/-- A file system that refuses names of more than 255 bytes and has nothing else. -/
def emptyHost : Host where
  storeDir := ascii "/nix/store"
  pathExists path := if (pathNames path).any (255 < ·.length) then none else some false
  writeBack _ _ := true

/-- The entry point lies in a segment that the file does not have. -/
def cutSegment : Bytes := header 4096 0 ++ phdr ptLoad 4096 4000 4096

/-- A NEEDED with a name of `n` bytes and a RUNPATH. -/
def longNeeded (n : Nat) : Bytes :=
  header 0 2 ++ phdr ptNull 0 0 0 ++ shdr shtDynamic 248 32 1 16 ++ shdr 3 280 (n + 14) 0 0 ++
    dyn dtRunpath 0 ++ dyn dtNeeded 13 ++ ascii "/nix/store/b" ++ [0] ++
    List.replicate n (chr 'x') ++ [0]

/-- A NEEDED whose string is said to begin at the last 64-bit number. -/
def hostileNeeded : Bytes :=
  header 0 2 ++ phdr ptNull 0 0 0 ++ shdr shtDynamic 248 16 1 16 ++ shdr 3 264 1 0 0 ++
    dyn dtNeeded (2 ^ 64 - 1) ++ [0]

/-- A symbol table with entries of almost 2^64 bytes. -/
def hostileSymbols : Bytes :=
  header 0 2 ++ phdr ptNull 0 0 0 ++ shdr shtDynsym 248 24 1 (2 ^ 64 - 24) ++ shdr 3 272 1 0 0 ++
    List.replicate 25 0

end SampleElf

open SampleElf in
/-- The probe for a stub header throws, and so does the question for a long NEEDED. The
place of a string and the step from a symbol to the next overflow. -/
theorem cut_segment_throws :
    fixElf emptyHost context binary cutSegment = .error .outOfRange ∧
      fixElf emptyHost context binary (longNeeded 256) = .error .filesystemError ∧
      fixElf emptyHost context binary hostileNeeded = .error .overflow ∧
      fixElf emptyHost context binary hostileSymbols = .error .overflow := by
  decide +kernel

open SampleElf in
/-- A NEEDED that no directory has is an error of the build, not a fault. -/
theorem fixElf_finishes_iff_short :
    (longNeeded 9).length < 2 ^ 63 ∧
      fixElf emptyHost context binary (longNeeded 9) = .ok (some ⟨none, 2⟩) ∧
      ∀ ehdr, Accepted (longNeeded 9) ehdr →
        Passes emptyHost context binary (longNeeded 9) ehdr (readSections (longNeeded 9) ehdr) := by
  have hsize : (longNeeded 9).length < 2 ^ 63 := by decide +kernel
  have hrun : fixElf emptyHost context binary (longNeeded 9) = .ok (some ⟨none, 2⟩) := by
    decide +kernel
  exact ⟨hsize, hrun, (fixElf_finishes_iff emptyHost context binary (longNeeded 9) hsize).1.mp
    ⟨some ⟨none, 2⟩, hrun⟩⟩

end Repkgs.Jig.Elf
