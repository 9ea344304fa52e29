import FlameDB.Client.Journal
import FlameDB.Client.JournalText

/-!
# Nothing is sent twice, nothing is lost

An entry is written to the open file of one stem and never leaves that stem: files are only renamed,
or rebuilt under the same stem.  So it is enough to follow stems.  Of the files of a stem at most
one is live, and once a batch of the stem may have reached the server, that file is none of those
the sender could claim, now or after a restart.

* `DirInv` — the invariant of the directory; `DirInv.move`, `DirInv.set` say which renames and
  writes keep it;
* `JournalInv.step` — every event keeps the invariant of the whole, hence every run with any
  crashes;
* `journal_safe` — no entry is sent again once its batch may have reached the server, and each
  admitted entry is in a journal file until its batch is acknowledged, in runs that append no entry
  with a lone surrogate: of such a one the journal keeps another entry.
-/

namespace FlameDB.Client

open Go KV

@[simp]
lemma fileName_inj {s t : ℕ} {a b : Extension} : fileName s a = fileName t b ↔ s = t ∧ a = b := by
  simp [fileName]

lemma exists_fileName (name : FileName) : ∃ stem ext, name = fileName stem ext :=
  ⟨(ofLex name).1, (ofLex name).2, rfl⟩

/-- The extensions of which a stem has at most one; the others are copies and results. -/
def Extension.live : Extension → Bool
  | .recovered | .result => false
  | _ => true

/-- The extensions of files that may become pending or are. -/
def Extension.sendable : Extension → Bool
  | .opened | .pending | .rebuild => true
  | _ => false

lemma Extension.live_of_sendable {e : Extension} (h : e.sendable = true) : e.live = true := by
  cases e <;> simp_all [Extension.sendable, Extension.live]

variable {W : Type} {J : JsonCodec W}

/-- A longer file begins with the entries of a shorter one. -/
lemma Holds.isPrefix {file more : Bytes} {es es' : List W} (h : Holds J file es)
    (h' : Holds J (file ++ more) es') : es <+: es' := by
  obtain ⟨tail, rfl, hfit, -⟩ := h
  obtain ⟨tail', heq, hfit', htail'⟩ := h'
  have hend : readFrame J.decode tail' = .error .eof := by
    rcases htail' with rfl | htorn
    · rfl
    · exact readFrame_torn htorn
  have hcons : ∀ (w : W) (es : List W) (tail : Bytes), Fits J w →
      readFrame J.decode (frames J (w :: es) ++ tail) = .ok (w, frames J es ++ tail) := by
    intro w es tail hw
    rw [← readFrame_writeFrame hw]
    simp [frames]
  -- both lists are read back frame by frame
  induction es generalizing es' with
  | nil => exact List.nil_prefix
  | cons w es ih =>
      have hw := hcons w es (tail ++ more) (hfit w List.mem_cons_self)
      rw [← List.append_assoc, heq] at hw
      cases es' with
      | nil =>
          rw [frames, List.flatMap_nil, List.nil_append, hend] at hw
          exact absurd hw (by simp)
      | cons w' es' =>
          rw [hcons w' es' tail' (hfit' w' List.mem_cons_self)] at hw
          simp only [Except.ok.injEq, Prod.mk.injEq] at hw
          obtain ⟨rfl, hrest⟩ := hw
          rw [List.prefix_cons_inj]
          exact ih (fun w hw => hfit w (.tail _ hw))
            (by rw [List.append_assoc]; exact hrest.symm) fun w hw => hfit' w (.tail _ hw)

/-- A file has the entries of one list only. -/
lemma Holds.unique {file : Bytes} {es es' : List W} (h : Holds J file es) (h' : Holds J file es') :
    es = es' := by
  rw [← List.append_nil file] at h'
  have hpre := h.isPrefix h'
  rw [List.append_nil] at h'
  rw [← List.append_nil file] at h
  exact hpre.eq_of_length (le_antisymm hpre.length_le (h'.isPrefix h).length_le)

/-- Any beginning of a rebuilt file has some of its entries. -/
lemma exists_holds_of_append {es : List W} (hfit : ∀ w ∈ es, Fits J w) {written rest : Bytes}
    (h : written ++ rest = frames J es) : ∃ es', Holds J written es' ∧ ∀ w ∈ es', w ∈ es := by
  obtain ⟨r, tail, htake, htail, hpre⟩ := exists_take_frames hfit written.length
  rw [← h, List.take_left] at htake
  have hsub : ∀ w ∈ r, w ∈ es := fun w hw => hpre.initial.subset hw
  exact ⟨r, ⟨tail, htake, fun w hw => hfit w (hsub w hw), htail⟩, hsub⟩

/-- A rename that worked. -/
structure Moved (d : Directory) (stem : ℕ) (a b : Extension) (d' : Directory)
    (file : Bytes) : Prop where
  source : d.get? (fileName stem a) = some file
  target : d'.get? (fileName stem b) = some file
  gone : a ≠ b → d'.get? (fileName stem a) = none
  other : ∀ t e, ¬ (t = stem ∧ (e = a ∨ e = b)) → d'.get? (fileName t e) = d.get? (fileName t e)

lemma moveFile_eq_some {d d' : Directory} {stem : ℕ} {a b : Extension}
    (h : moveFile d stem a b = some d') : ∃ file, Moved d stem a b d' file := by
  obtain ⟨file, hfile, rfl⟩ := Option.map_eq_some_iff.mp h
  refine ⟨file, hfile, by simp, fun hab => ?_, fun t e hne => ?_⟩
  · rw [OrdMap.get?_set_of_ne _ _ (by simp [hab]), OrdMap.get?_erase, if_pos rfl]
  · rw [OrdMap.get?_set_of_ne _ _ (by rw [ne_eq, fileName_inj]; tauto),
      OrdMap.get?_erase_of_ne _ (by rw [ne_eq, fileName_inj]; tauto)]

/-! ## The invariant of the directory

It speaks about the files alone and therefore survives a crash at any step. -/

/-- No batch of the stem may have reached the server. -/
def Unreached (sends : List (Send W)) (stem : ℕ) : Prop :=
  ∀ x ∈ sends, x.reached = true → x.stem ≠ stem

/-- What holds of the files between any two steps, whatever the process was doing. -/
structure DirInv (J : JsonCodec W) (d : Directory) (placed : List (W × ℕ)) (acked : List W)
    (sends : List (Send W)) : Prop where
  files : ∀ stem ext file, d.get? (fileName stem ext) = some file → ext ≠ .result →
    ∃ es, Holds J file es ∧ ∀ w ∈ es, (w, stem) ∈ placed
  single : ∀ stem a b, a.live = true → b.live = true → (d.get? (fileName stem a)).isSome = true →
    (d.get? (fileName stem b)).isSome = true → a = b
  recovered : ∀ stem, (d.get? (fileName stem .recovered)).isSome = true →
    d.get? (fileName stem .opened) = none
  unsent : ∀ stem ext, ext.sendable = true → (d.get? (fileName stem ext)).isSome = true →
    Unreached sends stem
  done : ∀ stem file es, d.get? (fileName stem .done) = some file → Holds J file es →
    ∀ w ∈ es, w ∈ acked

/-- The entry is in some journal file. -/
def Kept (J : JsonCodec W) (d : Directory) (w : W) : Prop :=
  ∃ stem ext file es, ext ≠ .result ∧ d.get? (fileName stem ext) = some file ∧
    Holds J file es ∧ w ∈ es

section Directory

variable {d d' : Directory} {placed placed' : List (W × ℕ)} {acked acked' : List W}
  {sends sends' : List (Send W)} {stem : ℕ} {a b : Extension} {file : Bytes}

lemma dirInv_empty : DirInv J ∅ placed acked sends := by
  have hnone : ∀ name, (∅ : Directory).get? name = none := fun _ => rfl
  constructor <;> simp [hnone]

/-- The history may grow as long as no claimable file loses its innocence. -/
lemma DirInv.mono (h : DirInv J d placed acked sends) (hplaced : ∀ x ∈ placed, x ∈ placed')
    (hacked : ∀ w ∈ acked, w ∈ acked')
    (hsends : ∀ stem ext, ext.sendable = true → (d.get? (fileName stem ext)).isSome = true →
      Unreached sends stem → Unreached sends' stem) : DirInv J d placed' acked' sends' where
  files stem ext file hf hne := by
    obtain ⟨es, hes, hp⟩ := h.files stem ext file hf hne
    exact ⟨es, hes, fun w hw => hplaced _ (hp w hw)⟩
  single := h.single
  recovered := h.recovered
  unsent stem ext he hs := hsends stem ext he hs (h.unsent stem ext he hs)
  done stem file es hf hes w hw := hacked w (h.done stem file es hf hes w hw)

/-- **Which renames are safe**: between live extensions, to an extension the sender could claim only
if no batch of the stem may have been received, and to done only if all entries are acknowledged. -/
lemma DirInv.move (h : DirInv J d placed acked sends) (hm : Moved d stem a b d' file)
    (ha : a.live = true) (hb : b.live = true) (hab : a ≠ b) (hopened : b ≠ .opened)
    (hsend : b.sendable = true → Unreached sends stem)
    (hdone : b = .done → ∀ es, Holds J file es → ∀ w ∈ es, w ∈ acked) :
    DirInv J d' placed acked sends := by
  have hares : a ≠ .result := by
    rintro rfl
    simp [Extension.live] at ha
  have hback : ∀ t e, e ≠ b ∨ t ≠ stem → (d'.get? (fileName t e)).isSome = true →
      (d.get? (fileName t e)).isSome = true ∧ ¬ (t = stem ∧ e = a) := by
    intro t e hne hs
    by_cases hte : t = stem ∧ e = a
    · rw [hte.1, hte.2, hm.gone hab] at hs
      simp at hs
    · rw [hm.other t e (by tauto)] at hs
      exact ⟨hs, hte⟩
  have hsome : (d.get? (fileName stem a)).isSome = true := by simp [hm.source]
  -- the stem's only live file is the one that moves
  have honly : ∀ e, e.live = true → e ≠ b → (d'.get? (fileName stem e)).isSome = false := by
    intro e he hne
    by_contra hs
    rw [Bool.not_eq_false] at hs
    obtain ⟨hs, hne'⟩ := hback stem e (Or.inl hne) hs
    exact hne' ⟨rfl, h.single stem e a he ha hs hsome⟩
  refine ⟨fun t e f hf hne => ?_, fun t x y hx hy hsx hsy => ?_, fun t hr => ?_,
    fun t e he hs => ?_, fun t f es hf hes => ?_⟩
  · by_cases hte : t = stem ∧ e = b
    · obtain ⟨rfl, rfl⟩ := hte
      rw [hm.target] at hf
      obtain rfl := Option.some.inj hf
      exact h.files _ _ _ hm.source hares
    · obtain ⟨-, hne'⟩ := hback t e (by tauto) (by simp [hf])
      rw [hm.other t e (by tauto)] at hf
      exact h.files t e f hf hne
  · by_cases ht : t = stem
    · subst ht
      by_cases hxb : x = b
      · by_cases hyb : y = b
        · rw [hxb, hyb]
        · simp [honly y hy hyb] at hsy
      · simp [honly x hx hxb] at hsx
    · exact h.single t x y hx hy (hback t x (Or.inr ht) hsx).1 (hback t y (Or.inr ht) hsy).1
  · by_cases ht : t = stem
    · subst ht
      have := honly .opened rfl hopened.symm
      simpa using this
    · rw [hm.other t .opened (by tauto)]
      exact h.recovered t (hback t _ (Or.inr ht) hr).1
  · by_cases hte : t = stem ∧ e = b
    · obtain ⟨rfl, rfl⟩ := hte
      exact hsend he
    · exact h.unsent t e he (hback t e (by tauto) hs).1
  · by_cases hte : t = stem ∧ Extension.done = b
    · obtain ⟨rfl, rfl⟩ := hte
      rw [hm.target] at hf
      obtain rfl := Option.some.inj hf
      exact hdone rfl es hes
    · obtain ⟨-, hne'⟩ := hback t .done (by tauto) (by simp [hf])
      rw [hm.other t .done (by tauto)] at hf
      exact h.done t f es hf hes

/-- An open file becomes the recovered one; the stem has no live file then. -/
lemma DirInv.moveRecovered (h : DirInv J d placed acked sends)
    (hm : Moved d stem .opened .recovered d' file) :
    DirInv J d' placed acked sends ∧ ∀ e, e.live = true → d'.get? (fileName stem e) = none := by
  have hsome : (d.get? (fileName stem .opened)).isSome = true := by simp [hm.source]
  have hback : ∀ t e, e ≠ .recovered → (d'.get? (fileName t e)).isSome = true →
      (d.get? (fileName t e)).isSome = true ∧ ¬ (t = stem ∧ e = .opened) := by
    intro t e hne hs
    by_cases hte : t = stem ∧ e = .opened
    · rw [hte.1, hte.2, hm.gone (by simp)] at hs
      simp at hs
    · rw [hm.other t e (by tauto)] at hs
      exact ⟨hs, hte⟩
  have hlive : ∀ e : Extension, e.live = true → e ≠ .recovered := by
    rintro e he rfl
    simp [Extension.live] at he
  have hnone : ∀ e, e.live = true → d'.get? (fileName stem e) = none := by
    intro e he
    by_contra hs
    obtain ⟨hs', hne⟩ := hback stem e (hlive e he) (Option.isSome_iff_ne_none.mpr hs)
    exact hne ⟨rfl, h.single stem e .opened he rfl hs' hsome⟩
  refine ⟨⟨fun t e f hf hne => ?_, fun t x y hx hy hsx hsy => ?_, fun t hr => ?_,
    fun t e he hs => ?_, fun t f es hf hes => ?_⟩, hnone⟩
  · by_cases hte : t = stem ∧ e = .recovered
    · obtain ⟨rfl, rfl⟩ := hte
      rw [hm.target] at hf
      obtain rfl := Option.some.inj hf
      exact h.files _ _ _ hm.source (by simp)
    · by_cases hop : t = stem ∧ e = .opened
      · rw [hop.1, hop.2, hm.gone (by simp)] at hf
        simp at hf
      · rw [hm.other t e (by tauto)] at hf
        exact h.files t e f hf hne
  · exact h.single t x y hx hy (hback t x (hlive x hx) hsx).1 (hback t y (hlive y hy) hsy).1
  · by_cases ht : t = stem
    · subst ht
      exact hnone .opened rfl
    · rw [hm.other t .recovered (by tauto)] at hr
      rw [hm.other t .opened (by tauto)]
      exact h.recovered t hr
  · exact h.unsent t e he (hback t e (hlive e (Extension.live_of_sendable he)) hs).1
  · rw [hm.other t .done (by simp)] at hf
    exact h.done t f es hf hes

/-- **Which writes are safe**: to the live file of a stem, or to a new one of a stem without. -/
lemma DirInv.set (h : DirInv J d placed acked sends) {es : List W} (hes : Holds J file es)
    (hplaced : ∀ w ∈ es, (w, stem) ∈ placed) (ha : a.sendable = true)
    (hun : Unreached sends stem)
    (hnew : (d.get? (fileName stem a)).isSome = true ∨
      ((∀ e, e.live = true → d.get? (fileName stem e) = none) ∧
        (a = .opened → d.get? (fileName stem .recovered) = none))) :
    DirInv J (d.set (fileName stem a) file) placed acked sends := by
  have hlive := Extension.live_of_sendable ha
  have hother : ∀ t e, ¬ (t = stem ∧ e = a) →
      (d.set (fileName stem a) file).get? (fileName t e) = d.get? (fileName t e) := fun t e hne =>
    OrdMap.get?_set_of_ne _ _ (by rwa [ne_eq, fileName_inj])
  have hself : (d.set (fileName stem a) file).get? (fileName stem a) = some file := by simp
  have honly : ∀ e, e.live = true → e ≠ a → d.get? (fileName stem e) = none := by
    intro e he hne
    rcases hnew with hs | hs
    · by_contra hsome
      exact hne (h.single stem e a he hlive (Option.isSome_iff_ne_none.mpr hsome) hs)
    · exact hs.1 e he
  have hrec : a = .opened → d.get? (fileName stem .recovered) = none := by
    rintro rfl
    rcases hnew with hs | hs
    · by_contra hsome
      rw [h.recovered stem (Option.isSome_iff_ne_none.mpr hsome)] at hs
      simp at hs
    · exact hs.2 rfl
  refine ⟨fun t e f hf hne => ?_, fun t x y hx hy hsx hsy => ?_, fun t hr => ?_,
    fun t e he hs => ?_, fun t f es' hf hes' => ?_⟩
  · by_cases hte : t = stem ∧ e = a
    · obtain ⟨rfl, rfl⟩ := hte
      rw [hself] at hf
      obtain rfl := Option.some.inj hf
      exact ⟨es, hes, hplaced⟩
    · rw [hother t e hte] at hf
      exact h.files t e f hf hne
  · by_cases ht : t = stem
    · subst ht
      by_cases hxa : x = a
      · by_cases hya : y = a
        · rw [hxa, hya]
        · rw [hother t y (by tauto), honly y hy hya] at hsy
          simp at hsy
      · rw [hother t x (by tauto), honly x hx hxa] at hsx
        simp at hsx
    · rw [hother t x (by tauto)] at hsx
      rw [hother t y (by tauto)] at hsy
      exact h.single t x y hx hy hsx hsy
  · have hra : ¬ (t = stem ∧ Extension.recovered = a) := by
      rintro ⟨-, rfl⟩
      simp [Extension.sendable] at ha
    rw [hother t .recovered hra] at hr
    by_cases hte : t = stem ∧ Extension.opened = a
    · obtain ⟨rfl, rfl⟩ := hte
      rw [hrec rfl] at hr
      simp at hr
    · rw [hother t .opened hte]
      exact h.recovered t hr
  · by_cases hte : t = stem ∧ e = a
    · rw [hte.1]
      exact hun
    · rw [hother t e hte] at hs
      exact h.unsent t e he hs
  · have hda : ¬ (t = stem ∧ Extension.done = a) := by
      rintro ⟨-, rfl⟩
      simp [Extension.sendable] at ha
    rw [hother t .done hda] at hf
    exact h.done t f es' hf hes'

/-- Results and deletions do not matter. -/
lemma DirInv.other (h : DirInv J d placed acked sends)
    (hsub : ∀ t e, e ≠ .result → d'.get? (fileName t e) = d.get? (fileName t e) ∨
      d'.get? (fileName t e) = none) : DirInv J d' placed acked sends := by
  have hback : ∀ t e f, e ≠ .result → d'.get? (fileName t e) = some f →
      d.get? (fileName t e) = some f := by
    intro t e f hne hf
    rcases hsub t e hne with hs | hs
    · rwa [hs] at hf
    · rw [hs] at hf
      simp at hf
  have hback' : ∀ t e, e.live = true → (d'.get? (fileName t e)).isSome = true →
      (d.get? (fileName t e)).isSome = true := by
    intro t e he hs
    obtain ⟨f, hf⟩ := Option.isSome_iff_exists.mp hs
    rw [hback t e f (by rintro rfl; simp [Extension.live] at he) hf]
    rfl
  refine ⟨fun t e f hf hne => h.files t e f (hback t e f hne hf) hne,
    fun t x y hx hy hsx hsy => h.single t x y hx hy (hback' t x hx hsx) (hback' t y hy hsy),
    fun t hr => ?_,
    fun t e he hs => h.unsent t e he (hback' t e (Extension.live_of_sendable he) hs),
    fun t f es hf hes => h.done t f es (hback t _ f (by simp) hf) hes⟩
  obtain ⟨f, hf⟩ := Option.isSome_iff_exists.mp hr
  have hopen := h.recovered t (by rw [hback t _ f (by simp) hf]; rfl)
  rcases hsub t .opened (by simp) with hs | hs
  · rw [hs, hopen]
  · exact hs

lemma DirInv.eraseDone (h : DirInv J d placed acked sends) :
    DirInv J (d.erase (fileName stem .done)) placed acked sends := by
  refine h.other fun t e _ => ?_
  by_cases hte : fileName t e = fileName stem .done
  · right
    rw [hte, OrdMap.get?_erase, if_pos rfl]
  · exact Or.inl (OrdMap.get?_erase_of_ne _ hte)

lemma Kept.move {w : W} (h : Kept J d w) (hm : Moved d stem a b d' file) (hb : b ≠ .result)
    (hnone : d.get? (fileName stem b) = none) : Kept J d' w := by
  obtain ⟨t, e, f, es, he, hf, hes, hw⟩ := h
  by_cases hta : t = stem ∧ e = a
  · obtain ⟨rfl, rfl⟩ := hta
    rw [hm.source] at hf
    obtain rfl := Option.some.inj hf
    exact ⟨_, _, file, es, hb, hm.target, hes, hw⟩
  · by_cases htb : t = stem ∧ e = b
    · rw [htb.1, htb.2, hnone] at hf
      simp at hf
    · exact ⟨t, e, f, es, he, by rw [hm.other t e (by tauto)]; exact hf, hes, hw⟩

lemma Kept.set {w : W} (h : Kept J d w) {es : List W} (hes : Holds J file es)
    (hgrow : ∀ old es', d.get? (fileName stem a) = some old → Holds J old es' → ∀ w ∈ es', w ∈ es) :
    Kept J (d.set (fileName stem a) file) w := by
  obtain ⟨t, e, f, es', he, hf, hes', hw⟩ := h
  by_cases hte : t = stem ∧ e = a
  · obtain ⟨rfl, rfl⟩ := hte
    exact ⟨_, _, file, es, he, OrdMap.get?_set_self .., hes, hgrow f es' hf hes' w hw⟩
  · refine ⟨t, e, f, es', he, ?_, hes', hw⟩
    rw [OrdMap.get?_set_of_ne _ _ (by rwa [ne_eq, fileName_inj])]
    exact hf

/-- Deleting a done file loses only acknowledged entries. -/
lemma Kept.eraseDone {w : W} (h : Kept J d w) (hdir : DirInv J d placed acked sends) :
    w ∈ acked ∨ Kept J (d.erase (fileName stem .done)) w := by
  obtain ⟨t, e, f, es, he, hf, hes, hw⟩ := h
  by_cases hte : t = stem ∧ e = .done
  · obtain ⟨rfl, rfl⟩ := hte
    exact Or.inl (hdir.done t f es hf hes w hw)
  · refine Or.inr ⟨t, e, f, es, he, ?_, hes, hw⟩
    rw [OrdMap.get?_erase_of_ne _ (by rwa [ne_eq, fileName_inj])]
    exact hf

/-- Live files of one stem exclude each other. -/
lemma DirInv.get?_none (h : DirInv J d placed acked sends) (ha : a.live = true) (hb : b.live = true)
    (hab : a ≠ b) (hs : (d.get? (fileName stem a)).isSome = true) :
    d.get? (fileName stem b) = none := by
  by_contra hne
  exact hab (h.single stem a b ha hb hs (Option.isSome_iff_ne_none.mpr hne))

end Directory

/-! ## The invariant of the journal

The directory, the history of admissions and acknowledgements, and what the running process has in
hand. -/

/-- The directory and the history. -/
structure HistoryInv (J : JsonCodec W) (s : Journal W) : Prop where
  dir : DirInv J s.directory s.placed s.acked s.sends
  placed_once : ∀ w a b, (w, a) ∈ s.placed → (w, b) ∈ s.placed → a = b
  sends_placed : ∀ x ∈ s.sends, ∀ w ∈ x.items, (w, x.stem) ∈ s.placed
  sends_once : s.sends.Pairwise fun x y => x.reached = true → x.stem ≠ y.stem
  kept : ∀ w ∈ s.admitted, w ∈ s.acked ∨ Kept J s.directory w

/-- The open file: complete frames of placed entries, then what was written of the next one. -/
structure StreamFile (J : JsonCodec W) (d : Directory) (placed : List (W × ℕ)) (stem : ℕ)
    (es : List W) (written : Bytes) : Prop where
  file : d.get? (fileName stem .opened) = some (frames J es ++ written)
  fits : ∀ w ∈ es, Fits J w
  placed : ∀ w ∈ es, (w, stem) ∈ placed

def Appender.isWriting : Appender W → Bool
  | .writing _ _ => true
  | _ => false

/-- What the appending side knows about its active file. -/
structure AppendInv (J : JsonCodec W) (d : Directory) (placed : List (W × ℕ)) (r : Running W) :
    Prop where
  clean : ∀ stem, r.stream = some stem → r.appender.isWriting = false → r.accepting = true →
    ∃ es, StreamFile J d placed stem es []
  writing : ∀ w rest, r.appender = .writing w rest → ∃ stem es written, r.stream = some stem ∧
    StreamFile J d placed stem es written ∧ written ++ rest = writeFrame (J.encode w) ∧ Fits J w ∧
    (w, stem) ∈ placed
  fresh : ∀ w, r.appender = .sealing w ∨ r.appender = .opening w →
    r.accepting = true ∧ Fits J w ∧ ∀ stem, (w, stem) ∉ placed

/-- The file in flight has these entries. -/
def Claimed (J : JsonCodec W) (d : Directory) (stem : ℕ) (items : List W) : Prop :=
  ∃ file, d.get? (fileName stem .inflight) = some file ∧ Holds J file items

/-- What the sender may rely on. -/
def SenderInv (J : JsonCodec W) (d : Directory) (acked : List W) (sends : List (Send W)) :
    Sender W → Prop
  | .claimed stem items => Claimed J d stem items ∧ Unreached sends stem
  | .answered stem items outcome => Claimed J d stem items ∧
      (outcome.fullAck items.length = true → ∀ w ∈ items, w ∈ acked) ∧
      (outcome.notSent = true → Unreached sends stem)
  | .failed stem safe => safe = true → Unreached sends stem
  | _ => True

/-- What recovery may rely on. -/
def RecoveryInv (J : JsonCodec W) (d : Directory) (placed : List (W × ℕ)) (sends : List (Send W)) :
    Recovery W → Prop
  | .next => True
  | .rebuild stem es => (∀ e : Extension, e.live = true → d.get? (fileName stem e) = none) ∧
      (∀ w ∈ es, Fits J w) ∧ (∀ w ∈ es, (w, stem) ∈ placed) ∧ Unreached sends stem
  | .writing stem es rest => (∃ written, d.get? (fileName stem .rebuild) = some written ∧
      written ++ rest = frames J es) ∧
      (∀ w ∈ es, Fits J w) ∧ (∀ w ∈ es, (w, stem) ∈ placed) ∧ Unreached sends stem

/-- The part of the invariant that a crash resets. -/
def ProcessInv (J : JsonCodec W) (s : Journal W) : Prop :=
  match s.process with
  | .stopped => True
  | .starting _ _ recovery => RecoveryInv J s.directory s.placed s.sends recovery
  | .running r =>
      AppendInv J s.directory s.placed r ∧ SenderInv J s.directory s.acked s.sends r.sender

/-- The invariant of the journal. -/
structure JournalInv (J : JsonCodec W) (s : Journal W) : Prop where
  history : HistoryInv J s
  process : ProcessInv J s

lemma journalInv_init : JournalInv J ({} : Journal W) :=
  ⟨⟨dirInv_empty, by simp, by simp, List.Pairwise.nil, by simp⟩, trivial⟩

section Frame

variable {d d' : Directory} {placed placed' : List (W × ℕ)} {r : Running W} {s : Journal W}
  {stem : ℕ} {a b : Extension} {file : Bytes}

/-- The appender only looks at its open file. -/
lemma AppendInv.congr (h : AppendInv J d placed r)
    (hd : ∀ stem, r.stream = some stem →
      d'.get? (fileName stem .opened) = d.get? (fileName stem .opened)) :
    AppendInv J d' placed r where
  clean stem hs hw ha := by
    obtain ⟨es, hf⟩ := h.clean stem hs hw ha
    exact ⟨es, ⟨(hd stem hs).trans hf.file, hf.fits, hf.placed⟩⟩
  writing w rest hw := by
    obtain ⟨stem, es, written, hs, hf, hrest⟩ := h.writing w rest hw
    exact ⟨stem, es, written, hs, ⟨(hd stem hs).trans hf.file, hf.fits, hf.placed⟩, hrest⟩
  fresh := h.fresh

lemma AppendInv.moved (h : AppendInv J d placed r) (hm : Moved d stem a b d' file)
    (ha : a ≠ .opened) (hb : b ≠ .opened) : AppendInv J d' placed r :=
  h.congr fun t _ => hm.other t .opened (by
    rintro ⟨-, rfl | rfl⟩
    · exact ha rfl
    · exact hb rfl)

/-- The sender only looks at its file in flight. -/
lemma SenderInv.congr {acked : List W} {sends : List (Send W)} {sender : Sender W}
    (h : SenderInv J d acked sends sender)
    (hd : ∀ stem, d'.get? (fileName stem .inflight) = d.get? (fileName stem .inflight)) :
    SenderInv J d' acked sends sender := by
  have hclaim : ∀ {stem : ℕ} {items : List W}, Claimed J d stem items →
    Claimed J d' stem items := by
    rintro stem items ⟨file, hf, hes⟩
    exact ⟨file, (hd stem).trans hf, hes⟩
  cases sender with
  | claimed stem items => exact ⟨hclaim h.1, h.2⟩
  | answered stem items outcome => exact ⟨hclaim h.1, h.2⟩
  | _ => exact h

/-- A safe rename keeps the history. -/
lemma HistoryInv.move (h : HistoryInv J s) (hm : Moved s.directory stem a b d' file)
    (ha : a.live = true) (hb : b.live = true) (hab : a ≠ b) (hopened : b ≠ .opened)
    (hsend : b.sendable = true → Unreached s.sends stem)
    (hdone : b = .done → ∀ es, Holds J file es → ∀ w ∈ es, w ∈ s.acked) (p : Process W) :
    HistoryInv J { s with directory := d', process := p } where
  dir := h.dir.move hm ha hb hab hopened hsend hdone
  placed_once := h.placed_once
  sends_placed := h.sends_placed
  sends_once := h.sends_once
  kept w hw := (h.kept w hw).imp_right fun hk => hk.move hm
    (by rintro rfl; simp [Extension.live] at hb)
    (h.dir.get?_none ha hb hab (by simp [hm.source]))

lemma HistoryInv.setProcess (h : HistoryInv J s) (p : Process W) :
    HistoryInv J { s with process := p } :=
  ⟨h.dir, h.placed_once, h.sends_placed, h.sends_once, h.kept⟩

end Frame

/-! ## The steps

One lemma for each kind of step; most only move a file or leave the directory alone. -/

section Steps

variable {s s' : Journal W} {r : Running W}

lemma DirInv.placed_of_holds {d : Directory} {placed : List (W × ℕ)} {acked : List W}
    {sends : List (Send W)} (h : DirInv J d placed acked sends) {stem : ℕ} {ext : Extension}
    {file : Bytes} (hf : d.get? (fileName stem ext) = some file) (hne : ext ≠ .result) {es : List W}
    (hes : Holds J file es) : ∀ w ∈ es, (w, stem) ∈ placed := by
  obtain ⟨es', hes', hp⟩ := h.files stem ext file hf hne
  rw [hes.unique hes']
  exact hp

lemma Holds.fits {file : Bytes} {es : List W} (h : Holds J file es) : ∀ w ∈ es, Fits J w := by
  obtain ⟨-, -, hfit, -⟩ := h
  exact hfit

/-- A file the constructor finds. -/
lemma JournalInv.recoverFile (h : JournalInv J s) {retained : ℕ} {todo : List FileName}
    {name : FileName} {d : Directory} {p : Process W}
    (hstep : recoverFile J s.directory retained todo name = some (d, p)) :
    JournalInv J { s with directory := d, process := p } := by
  obtain ⟨stem, ext, rfl⟩ := exists_fileName name
  have hplain : JournalInv J { s with process := .starting retained todo .next } :=
    ⟨h.history.setProcess _, trivial⟩
  cases ext with
  | inflight =>
      obtain ⟨d', hmove, heq⟩ := Option.map_eq_some_iff.mp hstep
      obtain ⟨rfl, rfl⟩ : d' = d ∧ Process.starting retained todo .next = p := by simpa using heq
      obtain ⟨file, hm⟩ := moveFile_eq_some hmove
      exact ⟨h.history.move hm rfl rfl (by simp) (by simp)
        (by simp [Extension.sendable]) (by simp) _,
        trivial⟩
  | opened =>
      obtain ⟨file, hfile, hread⟩ := Option.bind_eq_some_iff.mp hstep
      obtain ⟨es, hes, hplaced⟩ := h.history.dir.files stem .opened file hfile (by simp)
      have hun : Unreached s.sends stem := h.history.dir.unsent stem .opened rfl (by simp [hfile])
      have hrec : s.directory.get? (fileName stem .recovered) = none := by
        by_contra hne
        rw [h.history.dir.recovered stem (Option.isSome_iff_ne_none.mpr hne)] at hfile
        simp at hfile
      cases hr : readFile J.decode true file with
      | error e =>
          rw [hr] at hread
          obtain ⟨d', hmove, heq⟩ := Option.map_eq_some_iff.mp hread
          obtain ⟨rfl, rfl⟩ : d' = d ∧ Process.starting retained todo .next = p := by
            simpa using heq
          obtain ⟨file, hm⟩ := moveFile_eq_some hmove
          exact ⟨h.history.move hm rfl rfl (by simp) (by simp) (by simp [Extension.sendable])
            (by simp) _, trivial⟩
      | ok entries =>
          rw [hr] at hread
          obtain rfl := hes.readFile_eq hr
          obtain ⟨d', hmove, heq⟩ := Option.map_eq_some_iff.mp hread
          simp only [Prod.mk.injEq] at heq
          obtain ⟨rfl, rfl⟩ := heq
          obtain ⟨file', hm⟩ := moveFile_eq_some hmove
          obtain ⟨hdir, hnone⟩ := h.history.dir.moveRecovered hm
          refine ⟨⟨hdir, h.history.placed_once, h.history.sends_placed, h.history.sends_once,
            fun w hw => (h.history.kept w hw).imp_right fun hk => hk.move hm (by simp) hrec⟩, ?_⟩
          simp only [ProcessInv]
          split_ifs
          · trivial
          · exact ⟨hnone, hes.fits, hplaced, hun⟩
  | done =>
      obtain ⟨file, hfile, heq⟩ := Option.map_eq_some_iff.mp hstep
      simp only [Prod.mk.injEq] at heq
      obtain ⟨rfl, rfl⟩ := heq
      refine ⟨⟨h.history.dir.eraseDone, h.history.placed_once, h.history.sends_placed,
        h.history.sends_once, fun w hw => ?_⟩, trivial⟩
      exact (h.history.kept w hw).elim Or.inl fun hk => hk.eraseDone h.history.dir
  | _ =>
      have heq : (s.directory, Process.starting retained todo .next) = (d, p) :=
        Option.some.inj hstep
      obtain ⟨rfl, rfl⟩ := Prod.mk.inj heq
      exact hplain

lemma JournalInv.rebuildOpen (h : JournalInv J s) {retained : ℕ} {todo : List FileName} {stem : ℕ}
    {es : List W} (hp : s.process = .starting retained todo (.rebuild stem es)) :
    JournalInv J { s with
      directory := s.directory.set (fileName stem .rebuild) []
      process := .starting retained todo (.writing stem es (frames J es)) } := by
  have hproc := h.process
  rw [ProcessInv, hp] at hproc
  obtain ⟨hnone, hfit, hplaced, hun⟩ := hproc
  refine ⟨⟨h.history.dir.set holds_nil (by simp) rfl hun (Or.inr ⟨hnone, by simp⟩),
    h.history.placed_once, h.history.sends_placed, h.history.sends_once, fun w hw => ?_⟩,
    ⟨⟨[], by simp, rfl⟩, hfit, hplaced, hun⟩⟩
  refine (h.history.kept w hw).imp_right fun hk => hk.set holds_nil fun old es' hold => ?_
  rw [hnone .rebuild rfl] at hold
  simp at hold

/-- Recovery copies the complete frames of a torn file. -/
lemma JournalInv.rebuildWrite (h : JournalInv J s) {retained : ℕ} {todo : List FileName} {stem : ℕ}
    {es : List W} {rest file : Bytes}
    (hp : s.process = .starting retained todo (.writing stem es rest))
    (hf : s.directory.get? (fileName stem .rebuild) = some file) (n : ℕ) :
    JournalInv J { s with
      directory := s.directory.set (fileName stem .rebuild) (file ++ rest.take n)
      process := .starting retained todo (.writing stem es (rest.drop n)) } := by
  have hproc := h.process
  rw [ProcessInv, hp] at hproc
  obtain ⟨⟨written, hw, heq⟩, hfit, hplaced, hun⟩ := hproc
  obtain rfl : file = written := by simpa [hf] using hw
  have hsplit : (file ++ rest.take n) ++ rest.drop n = frames J es := by
    rw [List.append_assoc, List.take_append_drop, heq]
  obtain ⟨es', hes', hsub⟩ := exists_holds_of_append hfit hsplit
  refine ⟨⟨h.history.dir.set hes' (fun w hw => hplaced w (hsub w hw)) rfl hun
      (Or.inl (by simp [hf])),
    h.history.placed_once, h.history.sends_placed, h.history.sends_once, fun w hw => ?_⟩,
    ⟨⟨_, by simp, hsplit⟩, hfit, hplaced, hun⟩⟩
  refine (h.history.kept w hw).imp_right fun hk => hk.set hes' fun old es₀ hold hes₀ => ?_
  obtain rfl : file = old := by simpa [hf] using hold
  exact (hes₀.isPrefix hes').subset

lemma JournalInv.rebuildDone (h : JournalInv J s) {retained retained' : ℕ} {todo : List FileName}
    {stem : ℕ} {es : List W} (hp : s.process = .starting retained todo (.writing stem es []))
    {d : Directory} (hmove : moveFile s.directory stem .rebuild .pending = some d) :
    JournalInv J { s with directory := d, process := .starting retained' todo .next } := by
  have hproc := h.process
  rw [ProcessInv, hp] at hproc
  obtain ⟨-, -, -, hun⟩ := hproc
  obtain ⟨file, hm⟩ := moveFile_eq_some hmove
  exact ⟨h.history.move hm rfl rfl (by simp) (by simp) (fun _ => hun) (by simp) _, trivial⟩

/-- The open file is sealed. -/
lemma JournalInv.sealFile (h : JournalInv J s) (hp : s.process = .running r) {d : Directory}
    {r' : Running W} (hseal : sealFile s.directory r = some (d, r'))
      (hidle : r.appender.isWriting = false) :
    (∀ p, HistoryInv J { s with directory := d, process := p }) ∧
      SenderInv J d s.acked s.sends r.sender ∧ AppendInv J d s.placed r' ∧
      r'.appender = r.appender ∧ r'.sender = r.sender ∧ r'.accepting = r.accepting := by
  have hproc := h.process
  rw [ProcessInv, hp] at hproc
  obtain ⟨happ, hsend⟩ := hproc
  unfold Client.sealFile at hseal
  cases hs : r.stream with
  | none =>
      rw [hs] at hseal
      obtain ⟨rfl, rfl⟩ := Prod.mk.inj (Option.some.inj hseal)
      exact ⟨h.history.setProcess, hsend, happ, rfl, rfl, rfl⟩
  | some stem =>
      rw [hs] at hseal
      obtain ⟨d', hmove, heq⟩ := Option.map_eq_some_iff.mp hseal
      obtain ⟨rfl, rfl⟩ := Prod.mk.inj heq
      obtain ⟨file, hm⟩ := moveFile_eq_some hmove
      have hun : Unreached s.sends stem :=
        h.history.dir.unsent stem .opened rfl (by simp [hm.source])
      refine ⟨h.history.move hm rfl rfl (by simp) (by simp) (fun _ => hun) (by simp),
        hsend.congr fun t => hm.other t .inflight (by simp), ⟨by simp, ?_, happ.fresh⟩,
          rfl, rfl, rfl⟩
      intro w rest hw
      simp only at hw
      simp [hw, Appender.isWriting] at hidle

/-- An entry gets its place at the end of the open file. -/
lemma HistoryInv.place (h : HistoryInv J s) {w : W} (hw : ∀ stem, (w, stem) ∉ s.placed) (stem : ℕ)
    (p : Process W) : HistoryInv J { s with process := p, placed := (w, stem) :: s.placed } where
  dir := h.dir.mono (fun _ hx => .tail _ hx) (fun _ => id) fun _ _ _ _ => id
  placed_once := by
    intro w' a b ha hb
    rcases List.mem_cons.mp ha with ha | ha <;> rcases List.mem_cons.mp hb with hb | hb
    · exact (Prod.mk.inj ha).2.trans (Prod.mk.inj hb).2.symm
    · exact absurd ((Prod.mk.inj ha).1 ▸ hb) (hw b)
    · exact absurd ((Prod.mk.inj hb).1 ▸ ha) (hw a)
    · exact h.placed_once w' a b ha hb
  sends_placed x hx w' hw' := .tail _ (h.sends_placed x hx w' hw')
  sends_once := h.sends_once
  kept := h.kept

lemma JournalInv.appendOpen (h : JournalInv J s) (hp : s.process = .running r) {w : W}
    (hw : r.appender = .opening w) {stem : ℕ} (hs : r.stream = some stem) :
    JournalInv J { s with
      process := .running { r with appender := .writing w (writeFrame (J.encode w)) }
      placed := (w, stem) :: s.placed } := by
  have hproc := h.process
  rw [ProcessInv, hp] at hproc
  obtain ⟨happ, hsend⟩ := hproc
  obtain ⟨hacc, hfit, hfresh⟩ := happ.fresh w (Or.inr hw)
  obtain ⟨es, hfile⟩ := happ.clean stem hs (by simp [hw, Appender.isWriting]) hacc
  refine ⟨h.history.place hfresh stem _, ⟨by simp [Appender.isWriting], ?_, by simp⟩, hsend⟩
  intro w' rest hw'
  obtain ⟨rfl, rfl⟩ : w = w' ∧ writeFrame (J.encode w) = rest := by simpa using hw'
  exact ⟨stem, es, [], hs, ⟨hfile.file, hfile.fits, fun w hw => .tail _ (hfile.placed w hw)⟩, rfl,
    hfit, List.mem_cons_self⟩

lemma get?_eq_none_of_stem {d : Directory} {stem : ℕ}
    (h : (d.entries.all fun e => (ofLex e.1).1 ≠ stem) = true) (ext : Extension) :
    d.get? (fileName stem ext) = none := by
  by_contra hne
  obtain ⟨file, hf⟩ := Option.ne_none_iff_exists'.mp hne
  have := List.all_eq_true.mp h _ ((OrdMap.mem_entries_iff d _ file).mpr hf)
  simp [fileName] at this

/-- A new file under a number that was never used. -/
lemma JournalInv.appendCreate (h : JournalInv J s) (hp : s.process = .running r) {w : W}
    (hw : r.appender = .opening w) {stem : ℕ}
    (hnew : (s.directory.entries.all fun e => (ofLex e.1).1 ≠ stem) = true)
    (hsent : (s.sends.all fun x => x.stem ≠ stem) = true) :
    JournalInv J { s with
      directory := s.directory.set (fileName stem .opened) []
      process := .running { r with
        stream := some stem, appender := .writing w (writeFrame (J.encode w)) }
      placed := (w, stem) :: s.placed } := by
  have hproc := h.process
  rw [ProcessInv, hp] at hproc
  obtain ⟨happ, hsend⟩ := hproc
  obtain ⟨hacc, hfit, hfresh⟩ := happ.fresh w (Or.inr hw)
  have hnone := get?_eq_none_of_stem hnew
  have hun : Unreached s.sends stem := fun x hx _ => by
    simpa using List.all_eq_true.mp hsent x hx
  have hhist := h.history.place hfresh stem s.process
  refine ⟨⟨hhist.dir.set holds_nil (by simp) rfl hun
    (Or.inr ⟨fun e _ => hnone e, fun _ => hnone _⟩),
    hhist.placed_once, hhist.sends_placed, hhist.sends_once, fun w' hw' => ?_⟩,
    ⟨by simp [Appender.isWriting], ?_, by simp⟩, hsend.congr fun t => ?_⟩
  · refine (h.history.kept w' hw').imp_right fun hk => hk.set holds_nil fun old es' hold => ?_
    rw [hnone] at hold
    simp at hold
  · intro w' rest hw'
    obtain ⟨rfl, rfl⟩ : w = w' ∧ writeFrame (J.encode w) = rest := by simpa using hw'
    exact ⟨stem, [], [], rfl, ⟨by simp [frames], by simp, by simp⟩, rfl, hfit, List.mem_cons_self⟩
  · exact OrdMap.get?_set_of_ne _ _ (by simp)

/-- Some more bytes of the frame reach the file. -/
lemma JournalInv.appendWrite (h : JournalInv J s) (hp : s.process = .running r) {w : W}
    {rest : Bytes}
    (hw : r.appender = .writing w rest) {stem : ℕ} (hs : r.stream = some stem) {file : Bytes}
    (hf : s.directory.get? (fileName stem .opened) = some file) (n : ℕ) :
    JournalInv J { s with
      directory := s.directory.set (fileName stem .opened) (file ++ rest.take n)
      process := .running { r with appender := .writing w (rest.drop n) } } := by
  have hproc := h.process
  rw [ProcessInv, hp] at hproc
  obtain ⟨happ, hsend⟩ := hproc
  obtain ⟨stem', es, written, hs', hfile, heq, hfit, hplaced⟩ := happ.writing w rest hw
  obtain rfl : stem = stem' := by simpa [hs] using hs'
  obtain rfl : file = frames J es ++ written := by simpa [hf] using hfile.file
  have hsplit : (written ++ rest.take n) ++ rest.drop n = writeFrame (J.encode w) := by
    rw [List.append_assoc, List.take_append_drop, heq]
  have hheld := holds_written hfile.fits hfit hsplit
  rw [← List.append_assoc] at hheld
  have hun : Unreached s.sends stem := h.history.dir.unsent stem .opened rfl (by simp [hf])
  refine ⟨⟨h.history.dir.set hheld ?_ rfl hun (Or.inl (by simp [hf])), h.history.placed_once,
    h.history.sends_placed, h.history.sends_once, fun w' hw' => ?_⟩,
    ⟨by simp [Appender.isWriting], ?_, by simp⟩, hsend.congr fun t => ?_⟩
  · intro w' hw'
    split_ifs at hw'
    · rcases List.mem_append.mp hw' with hw' | hw'
      · exact hfile.placed w' hw'
      · exact List.mem_singleton.mp hw' ▸ hplaced
    · exact hfile.placed w' hw'
  · refine (h.history.kept w' hw').imp_right fun hk => hk.set hheld fun old es₀ hold hes₀ => ?_
    obtain rfl : frames J es ++ written = old := by simpa [hf] using hold
    exact (hes₀.isPrefix hheld).subset
  · intro w' rest' hw'
    obtain ⟨rfl, rfl⟩ : w = w' ∧ rest.drop n = rest' := by simpa using hw'
    exact ⟨stem, es, written ++ rest.take n, hs, ⟨by simp, hfile.fits, hfile.placed⟩, hsplit, hfit,
      hplaced⟩
  · exact OrdMap.get?_set_of_ne _ _ (by simp)

/-- **Admission**: the frame is complete, so the entry is in the file. -/
lemma JournalInv.appendDone (h : JournalInv J s) (hp : s.process = .running r) {w : W}
    (hw : r.appender = .writing w []) (count bytes retained : ℕ) :
    JournalInv J { s with
      process := .running { r with
        appender := .idle, retainedBytes := retained, count := count, bytes := bytes }
      admitted := w :: s.admitted } := by
  have hproc := h.process
  rw [ProcessInv, hp] at hproc
  obtain ⟨happ, hsend⟩ := hproc
  obtain ⟨stem, es, written, hs, hfile, heq, hfit, hplaced⟩ := happ.writing w [] hw
  rw [List.append_nil] at heq
  have hframes : frames J es ++ written = frames J (es ++ [w]) ++ [] := by simp [frames, heq]
  have hfits : ∀ w' ∈ es ++ [w], Fits J w' := by
    simpa [or_imp, forall_and] using ⟨hfile.fits, hfit⟩
  have hget := hfile.file
  rw [hframes] at hget
  refine ⟨⟨h.history.dir, h.history.placed_once, h.history.sends_placed, h.history.sends_once, ?_⟩,
    ⟨?_, by simp, by simp⟩, hsend⟩
  · intro w' hw'
    rcases List.mem_cons.mp hw' with rfl | hw'
    · rw [List.append_nil] at hget
      exact Or.inr ⟨stem, .opened, _, es ++ [w'], by simp, hget, holds_frames hfits, by simp⟩
    · exact h.history.kept w' hw'
  · intro stem' hs' _ _
    obtain rfl : stem = stem' := by simpa [hs] using hs'
    refine ⟨es ++ [w], hget, hfits, fun w' hw' => ?_⟩
    rcases List.mem_append.mp hw' with hw' | hw'
    · exact hfile.placed w' hw'
    · exact List.mem_singleton.mp hw' ▸ hplaced

/-- The appender does nothing to files when it begins, gives up or stops. -/
lemma JournalInv.setAppender (h : JournalInv J s) (hp : s.process = .running r) {r' : Running W}
    (hsender : r'.sender = r.sender) (happ' : AppendInv J s.directory s.placed r') :
    JournalInv J { s with process := .running r' } := by
  have hproc := h.process
  rw [ProcessInv, hp] at hproc
  refine ⟨h.history.setProcess _, happ', ?_⟩
  rw [hsender]
  exact hproc.2

/-- The sender claims the oldest file, or sets a damaged one aside. -/
lemma JournalInv.pickFile (h : JournalInv J s) (hp : s.process = .running r)
    (hidle : r.sender = .idle) {d : Directory} {r' : Running W}
    (hpick : pickFile J s.directory r = some (d, r')) :
    JournalInv J { s with directory := d, process := .running r' } := by
  have hproc := h.process
  rw [ProcessInv, hp] at hproc
  obtain ⟨happ, -⟩ := hproc
  simp only [Client.pickFile] at hpick
  cases hcache : oldestPending s.directory r with
  | nil =>
      rw [hcache] at hpick
      obtain ⟨rfl, rfl⟩ := Prod.mk.inj (Option.some.inj hpick)
      refine ⟨h.history.setProcess _, ⟨happ.clean, happ.writing, happ.fresh⟩, ?_⟩
      simp [SenderInv, hidle]
  | cons stem rest =>
      rw [hcache] at hpick
      obtain ⟨file, hfile, hread⟩ := Option.bind_eq_some_iff.mp hpick
      obtain ⟨es, hes, hplaced⟩ := h.history.dir.files stem .pending file hfile (by simp)
      have hun : Unreached s.sends stem := h.history.dir.unsent stem .pending rfl (by simp [hfile])
      cases hr : readFile J.decode false file with
      | error e =>
          rw [hr] at hread
          obtain ⟨d', hmove, heq⟩ := Option.map_eq_some_iff.mp hread
          obtain ⟨rfl, rfl⟩ := Prod.mk.inj heq
          obtain ⟨file', hm⟩ := moveFile_eq_some hmove
          have happ' := happ.moved hm (by simp) (by simp)
          refine ⟨h.history.move hm rfl rfl (by simp) (by simp) (by simp [Extension.sendable])
            (by simp) _, ⟨happ'.clean, happ'.writing, happ'.fresh⟩, ?_⟩
          simp [SenderInv, hidle]
      | ok items =>
          rw [hr] at hread
          obtain rfl := hes.readFile_eq hr
          obtain ⟨d', hmove, heq⟩ := Option.map_eq_some_iff.mp hread
          obtain ⟨rfl, rfl⟩ := Prod.mk.inj heq
          obtain ⟨file', hm⟩ := moveFile_eq_some hmove
          obtain rfl : file = file' := by simpa [hfile] using hm.source
          have happ' := happ.moved hm (by simp) (by simp)
          exact ⟨h.history.move hm rfl rfl (by simp) (by simp) (by simp [Extension.sendable])
            (by simp) _, ⟨happ'.clean, happ'.writing, happ'.fresh⟩, ⟨file, hm.target, hes⟩, hun⟩

lemma Outcome.reached_eq_false {outcome : Outcome} {reached : Bool}
    (h : outcome.mayBe reached = true) (hns : outcome.notSent = true) : reached = false := by
  cases outcome with
  | answer r => simp [Outcome.notSent] at hns
  | exception status => simp_all [Outcome.notSent, Outcome.mayBe]

/-- **A send**: the claimed file was never sent before, and no other file has its stem. -/
lemma JournalInv.send (h : JournalInv J s) (hp : s.process = .running r) {stem : ℕ} {items : List W}
    (hclaim : r.sender = .claimed stem items) {outcome : Outcome} {reached : Bool}
    (htrue : outcome.notSent = true → reached = false) :
    JournalInv J { s with
      process := .running { r with sender := .answered stem items outcome }
      acked := if outcome.fullAck items.length then items ++ s.acked else s.acked
      sends := s.sends ++ [⟨stem, items, reached⟩] } := by
  have hproc := h.process
  rw [ProcessInv, hp] at hproc
  obtain ⟨happ, hsend⟩ := hproc
  rw [hclaim] at hsend
  obtain ⟨⟨file, hfile, hes⟩, hun⟩ := hsend
  have hmore : ∀ t, t ≠ stem ∨ reached = false → Unreached s.sends t →
      Unreached (s.sends ++ [⟨stem, items, reached⟩]) t := by
    intro t ht hut x hx hreached
    rcases List.mem_append.mp hx with hx | hx
    · exact hut x hx hreached
    · obtain rfl := List.mem_singleton.mp hx
      rcases ht with ht | ht
      · exact ht.symm
      · exact absurd hreached (by simp [ht])
  have hacked : ∀ w ∈ s.acked, w ∈ if outcome.fullAck items.length then
    items ++ s.acked else s.acked := by
    intro w hw
    split_ifs
    · exact List.mem_append_right _ hw
    · exact hw
  refine ⟨⟨h.history.dir.mono (fun _ => id) hacked fun t e he hsome hut => hmore t (Or.inl ?_) hut,
    h.history.placed_once, ?_, ?_, fun w hw => (h.history.kept w hw).imp_left (hacked w)⟩,
    ⟨happ.clean, happ.writing, happ.fresh⟩, ⟨file, hfile, hes⟩, ?_, fun hns =>
      hmore stem (Or.inr (htrue hns)) hun⟩
  · rintro rfl
    have hne : Extension.inflight ≠ e := by
      rintro rfl
      simp [Extension.sendable] at he
    rw [h.history.dir.get?_none rfl (Extension.live_of_sendable he) hne (by simp [hfile])] at hsome
    simp at hsome
  · intro x hx w hw
    rcases List.mem_append.mp hx with hx | hx
    · exact h.history.sends_placed x hx w hw
    · obtain rfl := List.mem_singleton.mp hx
      exact h.history.dir.placed_of_holds hfile (by simp) hes w hw
  · rw [List.pairwise_append]
    refine ⟨h.history.sends_once, List.pairwise_singleton _ _, fun x hx y hy hreached => ?_⟩
    obtain rfl := List.mem_singleton.mp hy
    exact hun x hx hreached
  · intro hfull w hw
    rw [if_pos hfull]
    exact List.mem_append_left _ hw

/-- The sender moves its file and nothing else. -/
lemma JournalInv.moveClaimed (h : JournalInv J s) (hp : s.process = .running r) {stem : ℕ}
    {b : Extension} {d : Directory} (hmove : moveFile s.directory stem .inflight b = some d)
    (hb : b.live = true) (hne : b ≠ .inflight ∧ b ≠ .opened)
    (hsend : b.sendable = true → Unreached s.sends stem)
    (hdone : b = .done → ∀ file es, s.directory.get? (fileName stem .inflight) = some file →
      Holds J file es → ∀ w ∈ es, w ∈ s.acked)
    {r' : Running W} (happ' : r'.stream = r.stream ∧ r'.appender = r.appender ∧
      r'.accepting = r.accepting) (hsender : SenderInv J d s.acked s.sends r'.sender) :
    JournalInv J { s with directory := d, process := .running r' } := by
  have hproc := h.process
  rw [ProcessInv, hp] at hproc
  obtain ⟨file, hm⟩ := moveFile_eq_some hmove
  have happ := hproc.1.moved hm (by simp) hne.2
  obtain ⟨h1, h2, h3⟩ := happ'
  refine ⟨h.history.move hm rfl hb hne.1.symm hne.2 hsend
    (fun hd es hes => hdone hd file es hm.source hes) _, ⟨?_, ?_, ?_⟩, hsender⟩
  · rw [h1, h2, h3]
    exact happ.clean
  · rw [h1, h2]
    exact happ.writing
  · rw [h2, h3]
    exact happ.fresh

lemma JournalInv.setSender (h : JournalInv J s) (hp : s.process = .running r) (sender : Sender W)
    (hsender : SenderInv J s.directory s.acked s.sends sender) (cache : List ℕ) (retained : ℕ) :
    JournalInv J { s with process := .running { r with
      sender := sender, pendingCache := cache, retainedBytes := retained } } := by
  have hproc := h.process
  rw [ProcessInv, hp] at hproc
  exact ⟨h.history.setProcess _, ⟨hproc.1.clean, hproc.1.writing, hproc.1.fresh⟩, hsender⟩

/-- The sender deals with an answer, or with an exception. -/
lemma JournalInv.settleFile (h : JournalInv J s) (hp : s.process = .running r) {io : Bool}
    {saved : Bytes} {d : Directory} {r' : Running W}
    (hset : settleFile io saved s.directory r = some (d, r')) :
    JournalInv J { s with directory := d, process := .running r' } := by
  have hproc := h.process
  rw [ProcessInv, hp] at hproc
  obtain ⟨happ, hsend⟩ := hproc
  have hfailed : ∀ stem, SenderInv J s.directory s.acked s.sends (.failed stem false) :=
    fun stem hf => absurd hf (by simp)
  unfold Client.settleFile at hset
  cases hs : r.sender with
  | answered stem items outcome =>
      rw [hs] at hset hsend
      obtain ⟨⟨file, hfile, hes⟩, hfull, hun⟩ := hsend
      cases outcome with
      | exception status =>
          obtain ⟨rfl, rfl⟩ := Prod.mk.inj (Option.some.inj hset)
          exact h.setSender hp (.failed stem (status = some .notSent))
            (fun hf => hun (by simpa [Outcome.notSent] using hf)) _ _
      | answer ack =>
          simp only at hset
          split_ifs at hset with hio hvalid hcount
          · obtain ⟨rfl, rfl⟩ := Prod.mk.inj (Option.some.inj hset)
            exact h.setSender hp _ (hfailed stem) _ _
          · obtain ⟨d', hmove, heq⟩ := Option.map_eq_some_iff.mp hset
            obtain ⟨rfl, rfl⟩ := Prod.mk.inj heq
            exact h.moveClaimed hp hmove rfl (by simp) (by simp [Extension.sendable]) (by simp)
              ⟨rfl, rfl, rfl⟩ trivial
          · -- the result is saved beside the file
            obtain ⟨rfl, rfl⟩ := Prod.mk.inj (Option.some.inj hset)
            have hother : ∀ t e, e ≠ .result → (s.directory.set (fileName stem .result) saved).get?
                (fileName t e) = s.directory.get? (fileName t e) := fun t e he =>
              OrdMap.get?_set_of_ne _ _ (by simp [he])
            have happ' := happ.congr fun t _ => hother t .opened (by simp)
            refine ⟨⟨h.history.dir.other fun t e he => Or.inl (hother t e he),
              h.history.placed_once, h.history.sends_placed, h.history.sends_once, fun w hw => ?_⟩,
              ⟨happ'.clean, happ'.writing, happ'.fresh⟩, trivial⟩
            refine (h.history.kept w hw).imp_right ?_
            rintro ⟨t, e, f, es, he, hf, hrest⟩
            exact ⟨t, e, f, es, he, (hother t e he).trans hf, hrest⟩
          · obtain ⟨d', hmove, heq⟩ := Option.map_eq_some_iff.mp hset
            obtain ⟨rfl, rfl⟩ := Prod.mk.inj heq
            have hack : ∀ w ∈ items, w ∈ s.acked := hfull (by
              simp only [Outcome.fullAck, Bool.and_eq_true, beq_iff_eq]
              exact ⟨by simpa using hvalid, by simpa using hcount⟩)
            refine h.moveClaimed hp hmove rfl (by simp) (by simp [Extension.sendable]) ?_
              ⟨rfl, rfl, rfl⟩ trivial
            intro _ file' es hfile' hes'
            obtain rfl : file = file' := by simpa [hfile] using hfile'
            rw [hes'.unique hes]
            exact hack
  | saved stem =>
      rw [hs] at hset
      simp only at hset
      split_ifs at hset
      · obtain ⟨rfl, rfl⟩ := Prod.mk.inj (Option.some.inj hset)
        exact h.setSender hp _ (hfailed stem) _ _
      · obtain ⟨d', hmove, heq⟩ := Option.map_eq_some_iff.mp hset
        obtain ⟨rfl, rfl⟩ := Prod.mk.inj heq
        exact h.moveClaimed hp hmove rfl (by simp) (by simp [Extension.sendable]) (by simp)
          ⟨rfl, rfl, rfl⟩ trivial
  | failed stem safe =>
      rw [hs] at hset hsend
      simp only at hset
      split_ifs at hset with hgone hio hsafe
      · obtain ⟨rfl, rfl⟩ := Prod.mk.inj (Option.some.inj hset)
        exact h.setSender hp .idle trivial _ _
      · obtain ⟨rfl, rfl⟩ := Prod.mk.inj (Option.some.inj hset)
        exact h.setSender hp .stopped trivial _ _
      · -- back to pending: nothing of this stem was ever received
        obtain ⟨d', hmove, heq⟩ := Option.map_eq_some_iff.mp hset
        obtain ⟨rfl, rfl⟩ := Prod.mk.inj heq
        exact h.moveClaimed hp hmove rfl (by simp) (fun _ => hsend hsafe) (by simp)
          ⟨rfl, rfl, rfl⟩ trivial
      · obtain ⟨d', hmove, heq⟩ := Option.map_eq_some_iff.mp hset
        obtain ⟨rfl, rfl⟩ := Prod.mk.inj heq
        exact h.moveClaimed hp hmove rfl (by simp) (by simp [Extension.sendable]) (by simp)
          ⟨rfl, rfl, rfl⟩ trivial
  | confirmed stem =>
      rw [hs] at hset
      simp only at hset
      split_ifs at hset
      · obtain ⟨rfl, rfl⟩ := Prod.mk.inj (Option.some.inj hset)
        exact h.setSender hp .idle trivial _ _
      · obtain ⟨file, hfile, heq⟩ := Option.map_eq_some_iff.mp hset
        obtain ⟨rfl, rfl⟩ := Prod.mk.inj heq
        have happ' : AppendInv J (s.directory.erase (fileName stem .done)) s.placed r :=
          happ.congr fun t _ => OrdMap.get?_erase_of_ne _ (by simp)
        refine ⟨⟨h.history.dir.eraseDone, h.history.placed_once, h.history.sends_placed,
          h.history.sends_once, fun w hw => ?_⟩, ⟨happ'.clean, happ'.writing, happ'.fresh⟩, trivial⟩
        exact (h.history.kept w hw).elim Or.inl fun hk => hk.eraseDone h.history.dir
  | _ =>
      rw [hs] at hset
      exact absurd hset (by simp)

lemma JournalInv.appendInv (h : JournalInv J s) (hp : s.process = .running r) :
    AppendInv J s.directory s.placed r := by
  have hproc := h.process
  rw [ProcessInv, hp] at hproc
  exact hproc.1

/-- The appender ends without a file operation of its own. -/
lemma JournalInv.appendFail (h : JournalInv J s) (hp : s.process = .running r) (closed : Bool)
    (hs' : (match r.appender with
      | .idle => none
      | .writing _ _ => some { s with
          process := .running { r with appender := .idle, accepting := false } }
      | _ => some { s with
          process := .running { r with
            appender := .idle, stream := if closed then none else r.stream } }) = some s') :
    JournalInv J s' := by
  have happ := h.appendInv hp
  have hstop : ∀ w, r.appender = .sealing w ∨ r.appender = .opening w →
      JournalInv J { s with process := .running { r with
        appender := .idle, stream := if closed then none else r.stream } } := by
    intro w hw
    refine h.setAppender hp rfl ⟨fun stem hs _ hacc => ?_, by simp, by simp⟩
    refine happ.clean stem ?_ (by rcases hw with hw | hw <;> simp [hw, Appender.isWriting]) hacc
    simp only at hs
    split_ifs at hs
    exact hs
  cases hw : r.appender with
  | idle => simp [hw] at hs'
  | sealing w =>
      rw [hw] at hs'
      obtain rfl := Option.some.inj hs'
      exact hstop w (Or.inl hw)
  | opening w =>
      rw [hw] at hs'
      obtain rfl := Option.some.inj hs'
      exact hstop w (Or.inr hw)
  | writing w rest =>
      rw [hw] at hs'
      obtain rfl := Option.some.inj hs'
      exact h.setAppender hp rfl ⟨by simp, by simp, by simp⟩

/-- What the event appends reads back, if the client admits it. -/
def JournalEvent.Faithful (J : JsonCodec W) : JournalEvent W → Prop
  | .appendBegin w => J.admits w = true → J.Faithful w
  | _ => True

/-- **Every event keeps the invariant.** -/
theorem JournalInv.step [DecidableEq W] {cfg : JournalConfig} (h : JournalInv J s)
    {e : JournalEvent W} (hfaithful : e.Faithful J) (hstep : journalStep J cfg s e = some s') :
    JournalInv J s' := by
  cases e with
  | start =>
      simp only [journalStep] at hstep
      split at hstep
      · obtain rfl := Option.some.inj hstep
        exact ⟨h.history.setProcess _, trivial⟩
      · exact absurd hstep (by simp)
  | recover =>
      simp only [journalStep] at hstep
      split at hstep
      · obtain ⟨⟨d, p⟩, hrec, rfl⟩ := Option.map_eq_some_iff.mp hstep
        exact h.recoverFile hrec
      · exact absurd hstep (by simp)
  | rebuildOpen =>
      simp only [journalStep] at hstep
      split at hstep
      · rename_i hp
        obtain rfl := Option.some.inj hstep
        exact h.rebuildOpen hp
      · exact absurd hstep (by simp)
  | rebuildWrite n =>
      simp only [journalStep] at hstep
      split at hstep
      · rename_i hp
        obtain ⟨file, hf, rfl⟩ := Option.map_eq_some_iff.mp hstep
        exact h.rebuildWrite hp hf n
      · exact absurd hstep (by simp)
  | rebuildDone =>
      simp only [journalStep] at hstep
      split at hstep
      · rename_i hp
        obtain ⟨d, hmove, rfl⟩ := Option.map_eq_some_iff.mp hstep
        exact h.rebuildDone hp hmove
      · exact absurd hstep (by simp)
  | startDone =>
      simp only [journalStep] at hstep
      split at hstep
      · obtain rfl := Option.some.inj hstep
        exact ⟨h.history.setProcess _, ⟨by simp, by simp, by simp⟩, trivial⟩
      · exact absurd hstep (by simp)
  | appendBegin w =>
      simp only [journalStep] at hstep
      split at hstep
      · rename_i r hp
        split at hstep
        · rename_i hidle
          rw [Option.ite_none_right_eq_some] at hstep
          obtain ⟨⟨hadmits, hacc, hsize, -, hfresh⟩, hset⟩ := hstep
          obtain rfl := Option.some.inj hset
          have happ := h.appendInv hp
          have hnew : ∀ stem, (w, stem) ∉ s.placed := fun stem hmem =>
            hfresh (List.mem_map.mpr ⟨_, hmem, rfl⟩)
          refine h.setAppender hp rfl ⟨fun stem hs _ ha =>
            happ.clean stem hs (by simp [hidle, Appender.isWriting]) ha, fun w' rest hw' => ?_,
            fun w' hw' => ?_⟩
          · simp only at hw'
            split_ifs at hw'
          · obtain rfl : w = w' := by
              simp only at hw'
              split_ifs at hw' <;> simpa using hw'
            exact ⟨hacc, ⟨hsize, hfaithful hadmits⟩, hnew⟩
        · exact absurd hstep (by simp)
      · exact absurd hstep (by simp)
  | appendSeal =>
      simp only [journalStep] at hstep
      split at hstep
      · rename_i r hp
        split at hstep
        · rename_i w hw
          obtain ⟨⟨d, r'⟩, hseal, rfl⟩ := Option.map_eq_some_iff.mp hstep
          obtain ⟨hhist, hsend, happ', happr, hsnd, hacc⟩ :=
            h.sealFile hp hseal (by simp [hw, Appender.isWriting])
          have hfresh := happ'.fresh w (Or.inl (happr.trans hw))
          refine ⟨hhist _, ⟨fun stem hs _ ha =>
            happ'.clean stem hs (by simp [happr, hw, Appender.isWriting]) ha, by simp, ?_⟩, ?_⟩
          · intro w' hw'
            obtain rfl : w = w' := by simpa using hw'
            exact hfresh
          · simp only [hsnd]
            exact hsend
        · exact absurd hstep (by simp)
      · exact absurd hstep (by simp)
  | appendOpen stem =>
      simp only [journalStep] at hstep
      split at hstep
      · rename_i r hp
        split at hstep
        · rename_i w hw
          split at hstep
          · rename_i stem' hs
            obtain rfl := Option.some.inj hstep
            exact h.appendOpen hp hw hs
          · split_ifs at hstep with hguard
            obtain rfl := Option.some.inj hstep
            exact h.appendCreate hp hw hguard.1 hguard.2
        · exact absurd hstep (by simp)
      · exact absurd hstep (by simp)
  | appendWrite n =>
      simp only [journalStep] at hstep
      split at hstep
      · rename_i r hp
        split at hstep
        · rename_i w rest stem hw hs
          obtain ⟨file, hf, rfl⟩ := Option.map_eq_some_iff.mp hstep
          exact h.appendWrite hp hw hs hf n
        · exact absurd hstep (by simp)
      · exact absurd hstep (by simp)
  | appendDone =>
      simp only [journalStep] at hstep
      split at hstep
      · rename_i r hp
        split at hstep
        · rename_i w hw
          obtain rfl := Option.some.inj hstep
          exact h.appendDone hp hw _ _ _
        · exact absurd hstep (by simp)
      · exact absurd hstep (by simp)
  | appendFail closed =>
      simp only [journalStep] at hstep
      split at hstep
      · rename_i r hp
        exact h.appendFail hp closed hstep
      · exact absurd hstep (by simp)
  | flush =>
      simp only [journalStep] at hstep
      split at hstep
      · rename_i r hp
        split at hstep
        · rename_i hidle
          obtain ⟨⟨d, r'⟩, hseal, rfl⟩ := Option.map_eq_some_iff.mp hstep
          obtain ⟨hhist, hsend, happ', -, hsnd, -⟩ :=
            h.sealFile hp hseal (by simp [hidle, Appender.isWriting])
          refine ⟨hhist _, happ', ?_⟩
          rw [hsnd]
          exact hsend
        · exact absurd hstep (by simp)
      · exact absurd hstep (by simp)
  | flushFail =>
      simp only [journalStep] at hstep
      split at hstep
      · rename_i r hp
        split at hstep
        · rename_i hidle
          obtain rfl := Option.some.inj hstep
          exact h.setAppender hp rfl ⟨by simp, by simp [hidle], by simp [hidle]⟩
        · exact absurd hstep (by simp)
      · exact absurd hstep (by simp)
  | stopAdmission =>
      simp only [journalStep] at hstep
      split at hstep
      · rename_i r hp
        split at hstep
        · rename_i hidle
          obtain rfl := Option.some.inj hstep
          exact h.setAppender hp rfl ⟨by simp, by simp [hidle], by simp [hidle]⟩
        · exact absurd hstep (by simp)
      · exact absurd hstep (by simp)
  | pick =>
      simp only [journalStep] at hstep
      split at hstep
      · rename_i r hp
        split at hstep
        · rename_i hidle
          obtain ⟨⟨d, r'⟩, hpick, rfl⟩ := Option.map_eq_some_iff.mp hstep
          exact h.pickFile hp hidle hpick
        · exact absurd hstep (by simp)
      · exact absurd hstep (by simp)
  | send outcome reached =>
      simp only [journalStep] at hstep
      split at hstep
      · rename_i r hp
        split at hstep
        · rename_i stem items hclaim
          rw [Option.ite_none_right_eq_some] at hstep
          obtain ⟨htrue, hset⟩ := hstep
          obtain rfl := Option.some.inj hset
          exact h.send hp hclaim (Outcome.reached_eq_false htrue)
        · exact absurd hstep (by simp)
      · exact absurd hstep (by simp)
  | settle io saved =>
      simp only [journalStep] at hstep
      split at hstep
      · rename_i r hp
        obtain ⟨⟨d, r'⟩, hset, rfl⟩ := Option.map_eq_some_iff.mp hstep
        exact h.settleFile hp hset
      · exact absurd hstep (by simp)
  | stopSender =>
      simp only [journalStep] at hstep
      split at hstep
      · rename_i r hp
        split at hstep
        · obtain rfl := Option.some.inj hstep
          exact h.setSender hp .stopped trivial _ _
        · exact absurd hstep (by simp)
      · exact absurd hstep (by simp)
  | crash =>
      obtain rfl := Option.some.inj hstep
      exact ⟨h.history.setProcess _, trivial⟩

end Steps

/-- **The journal sends at most once and loses nothing**: in every run that appends well-formed
entries, with crashes and restarts anywhere, no entry of a batch that may have reached the server is
sent in a later batch, and each admitted entry is in some journal file unless the server has
acknowledged all of its batch. -/
theorem journal_safe {D : DoubleText} {cfg : JournalConfig} {es : List (JournalEvent JournalWrite)}
    {s : Journal JournalWrite} (hes : ∀ w, .appendBegin w ∈ es → w.WellFormed)
    (hrun : Machine.run (journalStep (entryCodec D) cfg) {} es = some s) :
    (s.sends.Pairwise fun x y => x.reached = true → ∀ w ∈ x.items, w ∉ y.items) ∧
      ∀ w ∈ s.admitted, w ∈ s.acked ∨ Kept (entryCodec D) s.directory w := by
  have hfaithful : ∀ e ∈ es, e.Faithful (entryCodec D) := by
    intro e he
    cases e with
    | appendBegin w => exact fun hadmits => (faithful_entryCodec hadmits).mpr (hes w he)
    | _ => trivial
  have h := (Machine.run_invariant (fun hs he hstep => JournalInv.step hs he hstep)
    journalInv_init hfaithful hrun).history
  refine ⟨h.sends_once.imp_of_mem fun {x y} hx hy hxy hreached w hwx hwy => ?_, h.kept⟩
  exact hxy hreached (h.placed_once w x.stem y.stem (h.sends_placed x hx w hwx)
    (h.sends_placed y hy w hwy))

/-- Two entries are admitted; the process dies while it sends them, and a new one recovers. -/
def sampleJournal : List (JournalEvent JournalWrite) :=
  [.start, .startDone, .appendBegin (sampleWrite "1" (literal "hits") Float64.zero), .appendOpen 7,
    .appendWrite 1000, .appendDone,
    .appendBegin (sampleWrite "2" (literal "kills") (Float64.ofBits 0x3FF8000000000000)),
    .appendOpen 0, .appendWrite 1000, .appendDone, .flush, .pick, .send (.exception none) true,
    .crash, .start, .recover, .startDone, .pick]

/-- Both entries are in the uncertain file, and were sent once. -/
theorem journal_safe_sample :
    ∃ s, Machine.run (journalStep (entryCodec sampleText) ⟨128, 5000⟩) {} sampleJournal = some s ∧
      s.admitted.length = 2 ∧ s.sends.length = 1 ∧
      (s.directory.get? (fileName 7 .uncertain)).isSome = true ∧
      (s.sends.Pairwise fun x y => x.reached = true → ∀ w ∈ x.items, w ∉ y.items) ∧
      ∀ w ∈ s.admitted, w ∈ s.acked ∨ Kept (entryCodec sampleText) s.directory w := by
  have hval : (Machine.run (journalStep (entryCodec sampleText) ⟨128, 5000⟩) {} sampleJournal).map
      (fun s => (s.admitted.length, s.sends.length,
        (s.directory.get? (fileName 7 .uncertain)).isSome)) = some (2, 1, true) := by
    decide +kernel
  obtain ⟨s, hs, heq⟩ := Option.map_eq_some_iff.mp hval
  simp only [Prod.mk.injEq] at heq
  refine ⟨s, hs, heq.1, heq.2.1, heq.2.2, journal_safe (fun w hw => ?_) hs⟩
  have hcases : w = sampleWrite "1" (literal "hits") Float64.zero ∨
      w = sampleWrite "2" (literal "kills") (Float64.ofBits 0x3FF8000000000000) := by
    simpa [sampleJournal] using hw
  rcases hcases with rfl | rfl <;> decide +kernel

/-- The metric with half a pair is admitted, and the only journal file has another entry. -/
theorem journal_entry_altered :
    loneWrite.admissible = true ∧
    ∃ s, Machine.run (journalStep (entryCodec sampleText) ⟨128, 5000⟩) {}
        [.start, .startDone, .appendBegin loneWrite, .appendOpen 7, .appendWrite 1000, .appendDone,
          .flush] = some s ∧
      s.admitted = [loneWrite] ∧ s.acked = [] ∧
      (s.directory.entries.map fun file => readFile (decodeEntry sampleText) true file.2) =
        [.ok [alteredWrite]] ∧
      ¬ Kept (entryCodec sampleText) s.directory loneWrite := by
  have hval : (Machine.run (journalStep (entryCodec sampleText) ⟨128, 5000⟩) {}
      [.start, .startDone, .appendBegin loneWrite, .appendOpen 7, .appendWrite 1000, .appendDone,
        .flush]).map (fun s => (s.admitted, s.acked,
          s.directory.entries.map fun file => readFile (decodeEntry sampleText) true file.2)) =
      some ([loneWrite], [], [.ok [alteredWrite]]) := by decide +kernel
  obtain ⟨s, hs, heq⟩ := Option.map_eq_some_iff.mp hval
  simp only [Prod.mk.injEq] at heq
  refine ⟨by decide +kernel, s, hs, heq.1, heq.2.1, heq.2.2, ?_⟩
  rintro ⟨stem, ext, file, es, -, -, hes, hmem⟩
  have hfaithful := (hes.fits loneWrite hmem).faithful
  exact absurd ((faithful_entryCodec (by decide +kernel)).mp hfaithful) (by decide +kernel)

end FlameDB.Client
