import Chton.DirectoryRuns

/-!
# Two channels for the same files

`FsIo` keeps the files of a client in a directory, `CoordMapStoreIo` keeps them in a map. On
keys that a directory can hold side by side a client cannot tell the two apart.
-/

namespace Chton.ChannelAgreement
open CallRuns ByteRegions Origins TreeStrategyProgram CoordMapProgram TextBytes
open KeyedMaps LexicalPaths StoreRuns MapServices FileNames FileStores FsStores FsEffects
open FsListings DirectoryRuns

/-- The prefix is empty or names a directory. -/
def Whole (pre : String) : Prop :=
  pre = "" ∨ ∃ front, pre.toList = front ++ ['/'] ∧ ∀ n ∈ components front, IsName n

/-- The keys lie side by side: none of them is a directory on the way to another. -/
structure Portable (host : Host) (io : FsIo) (cs : List FileCall) : Prop where
  accepted : ∀ c ∈ cs, ∀ key, c.path = some key → Accepted host key
  plain : ∀ c ∈ cs, ∀ key, c.path = some key → Plain key
  apart : ∀ c ∈ cs, ∀ key, c.path = some key → ∀ d ∈ cs, ∀ other, d.path = some other →
    components key.toList ∉ Above other
  prefixes : ∀ pre, .list pre ∈ cs → Accepted host pre ∧ Whole pre ∧ join io.root pre.toList ≠ []

inductive Alike : FileReply → FsReply → Prop
  | content (c : Option Bytes) : Alike (.ok (.content c)) (.ok (.content c))
  | done : Alike (.ok .done) (.ok .done)
  | names {ns ns' : List String} (perm : ns.Perm ns') : Alike (.ok (.names ns)) (.ok (.names ns'))

variable {pre key : String}

theorem Whole.components_eq (h : Whole pre) : ∃ ns, components pre.toList = ns ++ [[]] ∧
    (∀ n ∈ ns, IsName n) ∧ ∀ path : List Char, pre.toList <+: path → ns <+: components path ∧
      ns ≠ components path := by
  rcases h with rfl | ⟨front, hpre, hfront⟩
  · refine ⟨[], rfl, by simp, fun path _ => ⟨List.nil_prefix, ?_⟩⟩
    exact (components_ne_nil path).symm
  · have hempty : components [] = [[]] := rfl
    refine ⟨components front, ?_, hfront, ?_⟩
    · rw [hpre, components_append, hempty]
    · intro path hbegins
      obtain ⟨rest, rfl⟩ := hbegins
      have hpath : pre.toList ++ rest = front ++ '/' :: rest := by simp [hpre]
      rw [hpath, components_append]
      refine ⟨List.prefix_append _ _, fun heq => ?_⟩
      exact components_ne_nil rest (List.self_eq_append_right.mp heq)

theorem Whole.queryable (h : Whole pre) : Queryable pre.toList := by
  obtain ⟨ns, hcomponents, hns, -⟩ := h.components_eq
  exact ⟨ns, hns, .inr hcomponents⟩

theorem Whole.under (h : Whole pre) (hstarts : startsWith key pre) : Under pre key := by
  obtain ⟨ns, hcomponents, hns, hbegins⟩ := h.components_eq
  rw [Under, namesOf_eq hns (.inr hcomponents)]
  exact hbegins _ (prefix_of_startsWith hstarts)

variable {host : Host} {io : FsIo} {walkDir : WalkDir} {cs : List FileCall} {N : ℕ} {σ : Type}
  {byteCoord : UInt8 → Coord}

theorem Portable.proper (h : Portable host io cs) {c : FileCall} (hc : c ∈ cs) :
    Proper host c := by
  cases c with
  | list pre => exact ⟨(h.prefixes pre hc).1, (h.prefixes pre hc).2.1.queryable⟩
  | read key => exact ⟨h.accepted _ hc key rfl, h.plain _ hc key rfl⟩
  | write key data => exact ⟨h.accepted _ hc key rfl, h.plain _ hc key rfl⟩
  | delete key => exact ⟨h.accepted _ hc key rfl, h.plain _ hc key rfl⟩

structure Within (cs : List FileCall) (s : Seen) : Prop where
  files : ∀ key, s.files key ≠ none → ∃ c ∈ cs, c.path = some key
  dirs : ∀ rel ∈ s.dirs, ∃ c ∈ cs, ∃ key, c.path = some key ∧ rel ∈ Above key

theorem Portable.not_dir (h : Portable host io cs) {s : Seen} (hs : Within cs s) {c : FileCall}
    (hc : c ∈ cs) (hkey : c.path = some key) : components key.toList ∉ s.dirs := by
  intro hmem
  obtain ⟨d, hd, other, hother, habove⟩ := hs.dirs _ hmem
  exact h.apart c hc key hkey d hd other hother habove

theorem Portable.not_hindered (h : Portable host io cs) {s : Seen} (hs : Within cs s)
    {c : FileCall} (hc : c ∈ cs) (hkey : c.path = some key) : ¬ Hindered s.files s.dirs key := by
  intro hhindered
  rcases hhindered with ⟨other, hfile, habove⟩ | hmem
  · obtain ⟨d, hd, hother⟩ := hs.files other hfile
    exact h.apart d hd other hother c hc key hkey habove
  · exact h.not_dir hs hc hkey hmem

theorem Within.after {s : Seen} (hs : Within cs s) {c : FileCall} (hc : c ∈ cs) (r : FsReply) :
    Within cs (s.after (c, r)) := by
  cases r with
  | error e => cases c <;> exact hs
  | ok a =>
    cases c with
    | read key => exact hs
    | list pre => exact hs
    | write key data =>
      constructor
      · intro other hother
        by_cases heq : other = key
        · exact ⟨_, hc, by simp [FileCall.path, heq]⟩
        · exact hs.files other (by simpa [Seen.after, heq] using hother)
      · intro rel hrel
        rcases hrel with hrel | hrel
        · exact hs.dirs rel hrel
        · exact ⟨_, hc, key, rfl, hrel⟩
    | delete key =>
      refine ⟨fun other hother => ?_, hs.dirs⟩
      by_cases heq : other = key
      · simp [Seen.after, heq] at hother
      · exact hs.files other (by simpa [Seen.after, heq] using hother)

def Answers (files : Files) : FileCall → FileAnswer → Prop
  | .read key, a => a = .content (files key)
  | .write _ _, a => a = .done
  | .delete _, a => a = .done
  | .list pre, a => ∃ names, a = .names names ∧ Names files pre names

theorem Portable.answers (h : Portable host io cs) {s : Seen} (hs : Within cs s) {c : FileCall}
    (hc : c ∈ cs) {r : FsReply} (hr : Expected io s c r) : ∃ a, r = .ok a ∧ Answers s.files c a := by
  cases c with
  | read key =>
    rcases hr with ⟨-, hr⟩ | ⟨hhindered, -⟩
    · exact ⟨_, hr, rfl⟩
    · exact absurd hhindered (h.not_hindered hs hc rfl)
  | write key data =>
    rcases hr with ⟨-, hr⟩ | ⟨hhindered, -⟩
    · exact ⟨_, hr, rfl⟩
    · exact absurd hhindered (h.not_hindered hs hc rfl)
  | delete key =>
    rcases hr with ⟨-, hr⟩ | ⟨hdir, -⟩
    · exact ⟨_, hr, rfl⟩
    · exact absurd hdir (h.not_dir hs hc rfl)
  | list pre =>
    obtain ⟨names, hr, hnodup, hmem⟩ := hr
    obtain ⟨-, hwhole, hfull⟩ := h.prefixes pre hc
    refine ⟨_, hr, names, rfl, hnodup, fun key => ?_⟩
    rw [hmem]
    constructor
    · exact fun hkey => ⟨hkey.1, hkey.2.1⟩
    · exact fun hkey => ⟨hkey.1, hkey.2, hfull, hwhole.under hkey.2⟩

theorem alike_of_answers {files : Files} {c : FileCall} {a b : FileAnswer}
    (ha : Answers files c a) (hb : Answers files c b) : Alike (.ok a) (.ok b) := by
  cases c with
  | read key =>
    cases ha
    cases hb
    exact .content _
  | write key data =>
    cases ha
    cases hb
    exact .done
  | delete key =>
    cases ha
    cases hb
    exact .done
  | list pre =>
    obtain ⟨names, rfl, hnames⟩ := ha
    obtain ⟨names', rfl, hnames'⟩ := hb
    apply Alike.names
    apply (List.perm_ext_iff_of_nodup hnames.nodup hnames'.nodup).mpr
    intro name
    rw [hnames.mem, hnames'.mem]

variable [ByteOrigin σ] {slot : ℕ} {st : CoordMapStore 64 N σ} {fs : FileSystem}

theorem answers_of_keeps (hfail : NeverFails σ) (hinj : Function.Injective byteCoord) (hN : 0 < N)
    (hN' : N ≤ maxIoDepth) {files : Files} (h : Keeps byteCoord slot st files) {c : FileCall}
    {a : FileAnswer} (hok : (c.perform byteCoord st).1 = .ok a) : Answers files c a := by
  have hrun := fileRun_of_keeps hfail hinj hN hN' h
  have hname (key : String) (hkey : c.path = some key) : Nameable N key := by
    by_contra hnot
    obtain ⟨e, he⟩ := hrun.unnameable c key hkey hnot
    rw [he] at hok
    cases hok
  cases c with
  | read key =>
    cases hok.symm.trans (hrun.read key (hname key rfl))
    rfl
  | write key data =>
    have hfits : Fits slot key data.val := by
      by_contra hnot
      obtain ⟨e, he⟩ := hrun.oversized key data hnot
      rw [he] at hok
      cases hok
    rcases hrun.write key data (hname key rfl) hfits with hdone | ⟨e, he, -⟩
    · cases hok.symm.trans hdone
      rfl
    · cases hok.symm.trans he
  | delete key =>
    cases hok.symm.trans (hrun.delete key (hname key rfl))
    rfl
  | list pre =>
    obtain ⟨names, hnames, hmem⟩ := hrun.list pre
    cases hok.symm.trans hnames
    exact ⟨names, rfl, hmem⟩

def Level (host : Host) (io : FsIo) (byteCoord : UInt8 → Coord) (slot : ℕ) (cs : List FileCall)
    (st : CoordMapStore 64 N σ) (fs : FileSystem) : Prop :=
  ∃ s : Seen, Keeps byteCoord slot st s.files ∧ Tree host io fs s.files s.dirs ∧ Within cs s

/-- A call that the map takes is answered alike, and leaves the same files. -/
theorem Level.step (hfail : NeverFails σ) (hinj : Function.Injective byteCoord) (hN : 0 < N)
    (hN' : N ≤ maxIoDepth) (hwalk : Walks walkDir) (h : Portable host io cs)
    (hlevel : Level host io byteCoord slot cs st fs) {c : FileCall} (hc : c ∈ cs) {a : FileAnswer}
    (hok : (c.perform byteCoord st).1 = .ok a) :
    Alike (c.perform byteCoord st).1 (FileCall.performFs host io walkDir c fs).1 ∧
      Level host io byteCoord slot cs (c.perform byteCoord st).2
        (FileCall.performFs host io walkDir c fs).2 := by
  obtain ⟨s, hkeeps, htree, hs⟩ := hlevel
  have hnext := perform_keeps hfail hinj hN hN' hkeeps c
  have ha := answers_of_keeps hfail hinj hN hN' hkeeps hok
  rcases hr : FileCall.performFs host io walkDir c fs with ⟨r, fs'⟩
  obtain ⟨hexpected, hdirectory⟩ := htree.step hwalk (h.proper hc) hr
  obtain ⟨b, rfl, hanswers⟩ := h.answers hs hc hexpected
  rw [hok] at hnext ⊢
  have hfiles : s.files.after (c, .ok a) = (s.after (c, .ok b)).files := by
    cases c <;> rfl
  rw [hfiles] at hnext
  exact ⟨alike_of_answers ha hanswers, _, hnext, hdirectory, hs.after hc _⟩

/-- A call that the map refuses leaves its files as they were. -/
theorem Level.skip (hfail : NeverFails σ) (hinj : Function.Injective byteCoord) (hN : 0 < N)
    (hN' : N ≤ maxIoDepth) (hlevel : Level host io byteCoord slot cs st fs) {c : FileCall}
    {e : Stop IoError} (he : (c.perform byteCoord st).1 = .error e) :
    Level host io byteCoord slot cs (c.perform byteCoord st).2 fs := by
  obtain ⟨s, hkeeps, htree, hs⟩ := hlevel
  have hnext := perform_keeps hfail hinj hN hN' hkeeps c
  rw [he] at hnext
  have hfiles : s.files.after (c, .error e) = s.files := by
    cases c <;> rfl
  rw [hfiles] at hnext
  exact ⟨s, hnext, htree, hs⟩

def taken (c : FileCall) : FileReply → Option FileCall
  | .ok _ => some c
  | .error _ => none

/-- Whatever portable calls are made, a directory that gets those the map has taken gives the
answers of the map. -/
theorem channels_agree (hfail : NeverFails σ) (hinj : Function.Injective byteCoord) (hN : 1 ≤ N)
    (hN' : N ≤ maxIoDepth) {o : σ} (ho : ByteOrigin.bytes o = []) (d : SlotSize)
    (hwalk : Walks walkDir) (h₀ : Fresh host io fs) :
    ∃ st : CoordMapStore 64 N σ, CoordMapStore.new o d.val = .ok st ∧
      ∀ cs, Portable host io cs →
        let both := kept taken cs (run (FileCall.perform byteCoord) cs st).1
        List.Forall₂ Alike (both.map Prod.snd)
          (run (FileCall.performFs host io walkDir) (both.map Prod.fst) fs).1 := by
  obtain ⟨st, hnew, hback⟩ := backs_new (N := N) hN ho d
  refine ⟨st, hnew, fun cs h => ?_⟩
  apply run_alike (R := Level host io byteCoord d.val cs)
  · intro c hc s t hlevel hkeep
    cases hr : (c.perform byteCoord s).1 with
    | ok a => simp [taken, hr] at hkeep
    | error e => exact hlevel.skip hfail hinj hN hN' hr
  · intro c hc s t c' hlevel hkeep
    cases hr : (c.perform byteCoord s).1 with
    | ok a =>
      simp only [taken, hr, Option.some.injEq] at hkeep
      subst hkeep
      have hstep := hlevel.step hfail hinj hN hN' hwalk h hc hr
      rwa [hr] at hstep
    | error e => simp [taken, hr] at hkeep
  · exact ⟨⟨fun _ => none, ∅⟩, ⟨_, hback, encodes_none⟩, fresh_tree h₀, by simp, by simp⟩

/-- Two keys, one of them in a directory, and the listing of that directory. -/
def twoKeys : List FileCall := [.write "a/b" (.byte 7), .read "a/b", .delete "c", .list "a/"]

theorem twoKeys_portable : Portable asciiHost dataIo twoKeys := by
  constructor
  · simp [twoKeys, FileCall.path]
    decide +kernel
  · simp [twoKeys, FileCall.path]
    decide +kernel
  · simp [twoKeys, FileCall.path, Above]
    decide +kernel
  · intro pre hpre
    have hlist : pre = "a/" := by simpa [twoKeys] using hpre
    subst hlist
    exact ⟨by decide +kernel, .inr ⟨"a".toList, by decide +kernel, by decide +kernel⟩,
      by decide +kernel⟩

/-- Depth 16 and slots of 512 bytes against the directory `/data`. -/
theorem channels_agree_twoKeys :
    ∃ st : CoordMapStore 64 16 IdealOrigin, CoordMapStore.new ⟨[]⟩ 512 = .ok st ∧
      let both := kept taken twoKeys (run (FileCall.perform indexCoord) twoKeys st).1
      List.Forall₂ Alike (both.map Prod.snd)
        (run (FileCall.performFs asciiHost dataIo visit) (both.map Prod.fst) emptyData).1 := by
  obtain ⟨st, hnew, hagree⟩ := channels_agree IdealOrigin.neverFails indexCoord_injective
    (by decide : 1 ≤ 16) (by decide) rfl ⟨512, by decide⟩ visit_walks emptyData_fresh
  exact ⟨st, hnew, hagree twoKeys twoKeys_portable⟩

end Chton.ChannelAgreement
