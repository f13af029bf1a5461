import TorAndroid.Lib.BinarySearch
import Mathlib.Data.List.Sort
import Mathlib.Order.Lex
import Mathlib.Data.UInt

/-!
Which applications go through the tunnel: `TorifiedApp.getApps` and
`OrbotVpnManager.doLollipopAppRouting`. Strings are those of Java, sequences of
UTF-16 units. The package manager and the case tables of the platform are
parameters; user names are never null. What an application requests is not what the
scan of its permissions finds: the package manager may throw.
-/

namespace TorAndroid.Vpn.AppRouting

open TorAndroid.Lib.BinarySearch

abbrev JavaString := List UInt16

/-- The units of a text in ASCII. -/
def ascii (text : String) : JavaString := text.toList.map fun c => UInt16.ofNat c.toNat

/-- The separator of the preference. -/
def bar : UInt16 := 124

/-- `split("\\|")`: without a separator the text is the only token, otherwise empty
tokens at the end are left out. -/
def split (text : JavaString) : List JavaString :=
  if bar ∈ text then ((text.splitOn bar).reverse.dropWhile List.isEmpty).reverse
  else [text]

/-- `String.compareTo`. -/
def compareTo : JavaString → JavaString → Int
  | [], ys => -ys.length
  | x :: xs, [] => (x :: xs).length
  | x :: xs, y :: ys => if x = y then compareTo xs ys else x.toNat - y.toNat

/-- What the platform says about installed applications. -/
structure Platform where
  toUpperCase (c : UInt16) : UInt16
  toLowerCase (c : UInt16) : UInt16
  -- the permissions that the manifest of a package requests
  requestedPermissions (packageName : JavaString) : List JavaString
  -- `none` when the call throws, and no list when the package requests nothing
  getPackageInfo (packageName : JavaString) : Option (Option (List JavaString))
  getPackageInfo_reports : ∀ packageName permissions,
    getPackageInfo packageName = some permissions →
      permissions.getD [] = requestedPermissions packageName
  getNameForUid (uid : Int) : JavaString
  -- `none` when the call throws or returns null
  getApplicationLabel (packageName : JavaString) : Option JavaString

structure ApplicationInfo where
  packageName : JavaString
  flags : BitVec 32
  uid : Int
deriving DecidableEq, Repr

structure TorifiedApp where
  username : JavaString
  name : JavaString
  packageName : JavaString
  torified : Bool
deriving DecidableEq, Repr

/-- The calls of the `Builder` that route an application. -/
inductive Call
  | addAllowedApplication (packageName : JavaString)
  | addDisallowedApplication (packageName : JavaString)
deriving DecidableEq, Repr

def FLAG_SYSTEM : BitVec 32 := 1

def INTERNET : JavaString := ascii "android.permission.INTERNET"

section Apps

variable (platform : Platform)

/-- `String.compareToIgnoreCase`. -/
def compareToIgnoreCase : JavaString → JavaString → Int
  | [], ys => -ys.length
  | x :: xs, [] => (x :: xs).length
  | x :: xs, y :: ys =>
      let x' := platform.toUpperCase x
      let y' := platform.toUpperCase y
      if x = y ∨ x' = y' ∨ platform.toLowerCase x' = platform.toLowerCase y' then
        compareToIgnoreCase xs ys
      else (platform.toLowerCase x').toNat - (platform.toLowerCase y').toNat

/-- The scan of the permissions; an exception ends it. -/
def requestsInternet (info : ApplicationInfo) : Bool :=
  match platform.getPackageInfo info.packageName with
  | some (some requestedPermissions) => requestedPermissions.any fun permInfo => permInfo = INTERNET
  | _ => false

def isSystemApp (info : ApplicationInfo) : Bool := info.flags &&& FLAG_SYSTEM = 1

/-- One turn of the loop of `getApps`. -/
def torifiedApp (torifiedApps : List JavaString) (info : ApplicationInfo) : Option TorifiedApp :=
  if requestsInternet platform info || isSystemApp info then
    let username := platform.getNameForUid info.uid
    some {
      username := username
      name := (platform.getApplicationLabel info.packageName).getD info.packageName
      packageName := info.packageName
      torified := 0 ≤ binarySearch (fun token => compareTo token username) torifiedApps }
  else none

def getApps (torifiedPreference : JavaString) (installed : List ApplicationInfo) :
    List TorifiedApp :=
  let torifiedApps := (split torifiedPreference).mergeSort fun a b => compareTo a b ≤ 0
  (installed.filterMap (torifiedApp platform torifiedApps)).mergeSort fun a b =>
    compareToIgnoreCase platform a.name b.name ≤ 0

end Apps

/-- One turn of the loop of `doLollipopAppRouting`, with `perAppEnabled`. -/
def routeApp (ownPackage : JavaString) (x : List Call × Bool) (app : TorifiedApp) :
    List Call × Bool :=
  if app.torified ∧ app.packageName ≠ ownPackage then
    (x.1 ++ [.addAllowedApplication app.packageName], true)
  else x

def doLollipopAppRouting (platform : Platform) (ownPackage torifiedPreference : JavaString)
    (installed : List ApplicationInfo) : List Call :=
  let apps := getApps platform torifiedPreference installed
  let (calls, perAppEnabled) := apps.foldl (routeApp ownPackage) ([], false)
  if !perAppEnabled then calls ++ [.addDisallowedApplication ownPackage] else calls

section Order

theorem compareTo_lt_zero_iff (a b : JavaString) : compareTo a b < 0 ↔ a < b := by
  induction a generalizing b with
  | nil =>
      cases b with
      | nil => simp [compareTo]
      | cons y ys => simp [compareTo]; omega
  | cons x xs ih =>
      cases b with
      | nil => simp [compareTo]; omega
      | cons y ys =>
          rw [compareTo, List.cons_lt_cons_iff]
          by_cases hxy : x = y
          · simp [hxy, ih]
          · rw [if_neg hxy, UInt16.lt_iff_toNat_lt]
            simp only [hxy, false_and, or_false]
            omega

theorem compareTo_eq_zero_iff (a b : JavaString) : compareTo a b = 0 ↔ a = b := by
  induction a generalizing b with
  | nil =>
      cases b with
      | nil => simp [compareTo]
      | cons y ys => simp [compareTo]; omega
  | cons x xs ih =>
      cases b with
      | nil => simp [compareTo]; omega
      | cons y ys =>
          rw [compareTo]
          by_cases hxy : x = y
          · simp [hxy, ih]
          · have hne : x.toNat ≠ y.toNat := fun h => hxy (UInt16.toNat_inj.mp h)
            rw [if_neg hxy]
            simp only [List.cons.injEq, hxy, false_and, iff_false]
            omega

theorem compareTo_swap (a b : JavaString) : compareTo b a = -compareTo a b := by
  induction a generalizing b with
  | nil => cases b <;> simp [compareTo]
  | cons x xs ih =>
      cases b with
      | nil => simp [compareTo]
      | cons y ys =>
          rw [compareTo, compareTo]
          by_cases hxy : x = y
          · rw [if_pos hxy, if_pos hxy.symm, ih]
          · rw [if_neg hxy, if_neg (Ne.symm hxy)]
            omega

theorem compareTo_pos_iff (a b : JavaString) : 0 < compareTo a b ↔ b < a := by
  rw [← compareTo_lt_zero_iff, compareTo_swap]
  omega

theorem compareTo_le_zero_iff (a b : JavaString) : compareTo a b ≤ 0 ↔ a ≤ b := by
  rw [← not_lt, compareTo_pos_iff]
  exact List.not_lt

/-- The sorted tokens are in the order that the binary search expects. -/
theorem ascending_mergeSort (tokens : List JavaString) (key : JavaString) :
    Ascending (fun token => compareTo token key)
      (tokens.mergeSort fun a b => compareTo a b ≤ 0) := by
  have hsorted : (tokens.mergeSort fun a b => compareTo a b ≤ 0).Pairwise
      fun a b => decide (compareTo a b ≤ 0) = true := by
    refine List.pairwise_mergeSort ?_ ?_ tokens
    · intro a b c hab hbc
      simp only [decide_eq_true_eq, compareTo_le_zero_iff] at hab hbc ⊢
      exact List.le_trans hab hbc
    · intro a b
      simp only [Bool.or_eq_true, decide_eq_true_eq, compareTo_le_zero_iff]
      exact List.le_total a b
  refine hsorted.imp fun {a b} hab => ?_
  rw [decide_eq_true_eq, compareTo_le_zero_iff] at hab
  rw [compareTo_lt_zero_iff, compareTo_lt_zero_iff, compareTo_pos_iff, compareTo_pos_iff]
  refine ⟨List.lt_of_le_of_lt hab, fun hkey => List.not_le.mp fun hle => ?_⟩
  exact List.not_lt.mpr (List.le_trans hab hle) hkey

theorem binarySearch_token_iff (tokens : List JavaString) (key : JavaString) :
    0 ≤ binarySearch (fun token => compareTo token key)
        (tokens.mergeSort fun a b => compareTo a b ≤ 0) ↔ key ∈ tokens := by
  rw [binarySearch_nonneg_iff (ascending_mergeSort tokens key)]
  simp only [List.mem_mergeSort, compareTo_eq_zero_iff, exists_eq_right]

end Order

section Routing

variable (platform : Platform) (ownPackage torifiedPreference : JavaString)
  (installed : List ApplicationInfo)

/-- An application that is to go through the tunnel. -/
def Wanted (info : ApplicationInfo) : Prop :=
  info.packageName ≠ ownPackage ∧
    (INTERNET ∈ platform.requestedPermissions info.packageName ∨ isSystemApp info = true) ∧
    platform.getNameForUid info.uid ∈ split torifiedPreference

/-- An application that is found to be one that goes through the tunnel. -/
def Chosen (info : ApplicationInfo) : Prop :=
  info.packageName ≠ ownPackage ∧
    (requestsInternet platform info = true ∨ isSystemApp info = true) ∧
    platform.getNameForUid info.uid ∈ split torifiedPreference

instance : DecidablePred (Wanted platform ownPackage torifiedPreference) := fun _ =>
  inferInstanceAs (Decidable (_ ∧ _ ∧ _))

instance : DecidablePred (Chosen platform ownPackage torifiedPreference) := fun _ =>
  inferInstanceAs (Decidable (_ ∧ _ ∧ _))

/-- The packages of the applications that are to go through the tunnel. -/
def wantedPackages : List JavaString :=
  (installed.filter fun info => Wanted platform ownPackage torifiedPreference info).map
    ApplicationInfo.packageName

/-- The packages of those that are found. -/
def chosenPackages : List JavaString :=
  (installed.filter fun info => Chosen platform ownPackage torifiedPreference info).map
    ApplicationInfo.packageName

/-- The scan finds the permission if there is something to scan. -/
theorem requestsInternet_iff (info : ApplicationInfo) :
    requestsInternet platform info = true ↔
      (platform.getPackageInfo info.packageName).isSome ∧
        INTERNET ∈ platform.requestedPermissions info.packageName := by
  rw [requestsInternet]
  cases hinfo : platform.getPackageInfo info.packageName with
  | none => simp
  | some permissions =>
      rw [← platform.getPackageInfo_reports _ _ hinfo]
      cases permissions <;> simp

theorem chosen_iff (info : ApplicationInfo) :
    Chosen platform ownPackage torifiedPreference info ↔
      Wanted platform ownPackage torifiedPreference info ∧
        (isSystemApp info = false → (platform.getPackageInfo info.packageName).isSome) := by
  rw [Chosen, Wanted, requestsInternet_iff]
  cases isSystemApp info <;> simp; tauto

theorem foldl_routeApp (apps : List TorifiedApp) (x : List Call × Bool) :
    apps.foldl (routeApp ownPackage) x =
      (x.1 ++ (apps.filter fun app => app.torified ∧ app.packageName ≠ ownPackage).map
          fun app => .addAllowedApplication app.packageName,
        x.2 || apps.any fun app => app.torified ∧ app.packageName ≠ ownPackage) := by
  induction apps generalizing x with
  | nil => simp
  | cons app apps ih =>
      rw [List.foldl_cons, ih, routeApp]
      by_cases happ : app.torified = true ∧ app.packageName ≠ ownPackage
      · simp [happ]
      · rw [if_neg happ, List.filter_cons_of_neg (by simpa using happ), List.any_cons]
        simp [happ]

/-- One turn of the loop of `getApps` lists a chosen application as allowed, and no other. -/
theorem torifiedApp_filterMap (info : ApplicationInfo) :
    ((torifiedApp platform ((split torifiedPreference).mergeSort fun a b => compareTo a b ≤ 0)
        info).filter fun app => app.torified ∧ app.packageName ≠ ownPackage).map
        TorifiedApp.packageName =
      if Chosen platform ownPackage torifiedPreference info then
        some info.packageName else none := by
  rw [torifiedApp]
  by_cases hlisted : requestsInternet platform info || isSystemApp info
  · rw [if_pos hlisted]
    simp only [Bool.or_eq_true] at hlisted
    simp only [Option.filter_some, binarySearch_token_iff, decide_eq_true_eq, Chosen, hlisted,
      true_and, and_comm]
    split_ifs <;> rfl
  · rw [if_neg hlisted]
    simp only [Bool.or_eq_true] at hlisted
    simp [Chosen, hlisted]

/-- Of the applications that `getApps` lists, those are allowed that were chosen. -/
theorem allowed_perm :
    (((getApps platform torifiedPreference installed).filter fun app =>
        app.torified ∧ app.packageName ≠ ownPackage).map TorifiedApp.packageName).Perm
      (chosenPackages platform ownPackage torifiedPreference installed) := by
  rw [getApps, chosenPackages]
  refine (((List.mergeSort_perm _ _).filter _).map _).trans (List.Perm.of_eq ?_)
  rw [List.filter_filterMap, List.map_filterMap]
  simp only [torifiedApp_filterMap]
  induction installed with
  | nil => rfl
  | cons info installed ih =>
      by_cases hinfo : Chosen platform ownPackage torifiedPreference info
      · simp [hinfo, ih]
      · simp [hinfo, ih]

/-- The packages for which `addAllowedApplication` is called, in the order of the calls. -/
def allowedPackages (calls : List Call) : List JavaString :=
  calls.filterMap fun
    | .addAllowedApplication packageName => some packageName
    | .addDisallowedApplication _ => none

/-- The calls that are made when these packages are allowed. -/
def callsFor (allowed : List JavaString) : List Call :=
  if allowed = [] then [.addDisallowedApplication ownPackage]
  else allowed.map .addAllowedApplication

theorem doLollipopAppRouting_eq :
    ∃ allowed : List JavaString,
      allowed.Perm (chosenPackages platform ownPackage torifiedPreference installed) ∧
      doLollipopAppRouting platform ownPackage torifiedPreference installed =
        callsFor ownPackage allowed := by
  refine ⟨_, allowed_perm platform ownPackage torifiedPreference installed, ?_⟩
  rw [doLollipopAppRouting, foldl_routeApp, callsFor]
  generalize getApps platform torifiedPreference installed = apps
  by_cases hany : apps.any fun app => app.torified ∧ app.packageName ≠ ownPackage
  · have hne : (apps.filter fun app => app.torified ∧ app.packageName ≠ ownPackage) ≠ [] := by
      obtain ⟨app, hmem, happ⟩ := List.any_eq_true.mp hany
      exact List.ne_nil_of_mem (List.mem_filter.mpr ⟨hmem, happ⟩)
    simp only [hany, Bool.false_or, Bool.not_true, Bool.false_eq_true, if_false, List.nil_append,
      List.map_eq_nil_iff, if_neg hne, List.map_map]
    rfl
  · have hnil : (apps.filter fun app => app.torified ∧ app.packageName ≠ ownPackage) = [] := by
      refine List.filter_eq_nil_iff.mpr fun app hmem happ => hany ?_
      exact List.any_eq_true.mpr ⟨app, hmem, happ⟩
    simp only [hany, Bool.false_or, Bool.not_false, if_true, hnil, List.map_nil, List.nil_append]

/-- The calls that let the wanted applications and no others through the tunnel. -/
structure Routed (calls : List Call) : Prop where
  once : (allowedPackages calls).Perm
    (wantedPackages platform ownPackage torifiedPreference installed)
  allowed : ∀ packageName, .addAllowedApplication packageName ∈ calls ↔
    packageName ≠ ownPackage ∧
      ∃ info ∈ installed, info.packageName = packageName ∧
        (INTERNET ∈ platform.requestedPermissions info.packageName ∨ isSystemApp info = true) ∧
        platform.getNameForUid info.uid ∈ split torifiedPreference
  own : .addAllowedApplication ownPackage ∉ calls
  disallowed : ∀ packageName, .addDisallowedApplication packageName ∈ calls ↔
    packageName = ownPackage ∧ ∀ other, .addAllowedApplication other ∉ calls

theorem allowedPackages_callsFor (allowed : List JavaString) :
    allowedPackages (callsFor ownPackage allowed) = allowed := by
  rw [callsFor]
  split_ifs with hnone
  · rw [hnone]
    rfl
  · simp [allowedPackages, List.filterMap_map]

theorem mem_callsFor {allowed : List JavaString} {packageName : JavaString} :
    .addAllowedApplication packageName ∈ callsFor ownPackage allowed ↔ packageName ∈ allowed := by
  rw [callsFor]
  split_ifs with hnone
  · simp [hnone]
  · simp

/-- The calls are right if those packages are allowed that are wanted. -/
theorem routed_callsFor {allowed : List JavaString}
    (hperm : allowed.Perm (wantedPackages platform ownPackage torifiedPreference installed)) :
    Routed platform ownPackage torifiedPreference installed (callsFor ownPackage allowed) := by
  have hmem : ∀ packageName, packageName ∈ allowed ↔ packageName ≠ ownPackage ∧
      ∃ info ∈ installed, info.packageName = packageName ∧
        (INTERNET ∈ platform.requestedPermissions info.packageName ∨ isSystemApp info = true) ∧
        platform.getNameForUid info.uid ∈ split torifiedPreference := by
    intro packageName
    rw [hperm.mem_iff, wantedPackages]
    simp only [List.mem_map, List.mem_filter, decide_eq_true_eq]
    constructor
    · rintro ⟨info, ⟨hinfo, hown, hlisted, htoken⟩, rfl⟩
      exact ⟨hown, info, hinfo, rfl, hlisted, htoken⟩
    · rintro ⟨hown, info, hinfo, rfl, hlisted, htoken⟩
      exact ⟨info, ⟨hinfo, hown, hlisted, htoken⟩, rfl⟩
  refine ⟨?_, fun packageName => (mem_callsFor ownPackage).trans (hmem packageName), ?_, ?_⟩
  · rwa [allowedPackages_callsFor]
  · rw [mem_callsFor, hmem]
    exact fun h => h.1 rfl
  · intro packageName
    simp only [mem_callsFor]
    rw [callsFor]
    split_ifs with hnone
    · simp [hnone]
    · obtain ⟨first, hfirst⟩ := List.exists_mem_of_ne_nil allowed hnone
      constructor
      · simp
      · rintro ⟨-, hempty⟩
        exact absurd hfirst (hempty first)

/-- What is found is what is wanted only if nothing that is wanted is overlooked. -/
theorem chosenPackages_perm_iff :
    (chosenPackages platform ownPackage torifiedPreference installed).Perm
        (wantedPackages platform ownPackage torifiedPreference installed) ↔
      ∀ info ∈ installed, Wanted platform ownPackage torifiedPreference info →
        isSystemApp info = false → (platform.getPackageInfo info.packageName).isSome := by
  constructor
  · intro hperm info hinfo hwanted
    have hlength := hperm.length_eq
    rw [chosenPackages, wantedPackages, List.length_map, List.length_map] at hlength
    have hsub : (installed.filter fun info =>
      Chosen platform ownPackage torifiedPreference info).Sublist
        (installed.filter fun info => Wanted platform ownPackage torifiedPreference info) := by
      refine List.monotone_filter_right installed fun info hchosen => ?_
      rw [decide_eq_true_eq] at hchosen ⊢
      exact ((chosen_iff ..).mp hchosen).1
    have hmem : info ∈ installed.filter fun info =>
        Chosen platform ownPackage torifiedPreference info := by
      rw [hsub.eq_of_length hlength]
      exact List.mem_filter.mpr ⟨hinfo, decide_eq_true hwanted⟩
    exact ((chosen_iff ..).mp (of_decide_eq_true (List.mem_filter.mp hmem).2)).2
  · intro hfound
    refine List.Perm.of_eq (congrArg _ (List.filter_congr fun info hinfo => ?_))
    rw [decide_eq_decide, chosen_iff]
    exact and_iff_left_of_imp (hfound info hinfo)

/-- The packages that are allowed are those of the wanted applications, once for each of them,
and the service itself is excluded when there are none, and only then: unless the package manager
throws for an application that requests the permission and is not a system application. -/
theorem doLollipopAppRouting_routed_iff :
    Routed platform ownPackage torifiedPreference installed
        (doLollipopAppRouting platform ownPackage torifiedPreference installed) ↔
      ∀ info ∈ installed, Wanted platform ownPackage torifiedPreference info →
        isSystemApp info = false → (platform.getPackageInfo info.packageName).isSome := by
  obtain ⟨allowed, hperm, hcalls⟩ :=
    doLollipopAppRouting_eq platform ownPackage torifiedPreference installed
  rw [← chosenPackages_perm_iff, hcalls]
  constructor
  · intro hrouted
    have honce := hrouted.once
    rw [allowedPackages_callsFor] at honce
    exact hperm.symm.trans honce
  · exact fun hall => routed_callsFor _ _ _ _ (hperm.trans hall)

end Routing

section Example

/-- A package manager that throws for every package, though all request the permission. -/
def throwingPlatform : Platform where
  toUpperCase := id
  toLowerCase := id
  requestedPermissions := fun _ => [INTERNET]
  getPackageInfo := fun _ => none
  getPackageInfo_reports := by
    rintro _ _ ⟨⟩
  getNameForUid := fun _ => ascii "u"
  getApplicationLabel := fun _ => none

/-- An application that was chosen by the user is not routed through the tunnel. -/
theorem doLollipopAppRouting_not_routed :
    ¬ ∀ platform ownPackage torifiedPreference installed,
      Routed platform ownPackage torifiedPreference installed
        (doLollipopAppRouting platform ownPackage torifiedPreference installed) := by
  intro h
  have hrouted := h throwingPlatform (ascii "orbot") (ascii "u") [⟨ascii "app", 0, 0⟩]
  have hnone : doLollipopAppRouting throwingPlatform (ascii "orbot") (ascii "u")
      [⟨ascii "app", 0, 0⟩] = [.addDisallowedApplication (ascii "orbot")] := by
    simp [doLollipopAppRouting, getApps, torifiedApp, requestsInternet, throwingPlatform,
      isSystemApp, FLAG_SYSTEM]
  have hallowed := (hrouted.allowed (ascii "app")).mpr (by decide)
  rw [hnone] at hallowed
  revert hallowed
  decide

end Example

end TorAndroid.Vpn.AppRouting
