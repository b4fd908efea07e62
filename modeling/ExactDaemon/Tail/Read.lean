import ExactDaemon.Tail.Poll

/-! # `tail_reopen` and `tail_read`

Each function is verified statement by statement against the assertions of a poll.
-/

namespace ExactDaemon

open Prog

variable {W : Watch} {P : LogMove → Prop} {A : World → World → Prop} {w s t : World}
  {got : Bytes} {fd i j p q c : ℕ}

/-! ### tail_reopen -/

namespace World

def opened (w : World) (i : ℕ) : World :=
  { w with
    fs := { w.fs with
      stream := Function.update w.fs.stream w.fs.nextFd ⟨i, 0, []⟩
      nextFd := w.fs.nextFd + 1 }
    tail := { w.tail with f := some w.fs.nextFd } }

theorem openLog_none {log : CStr} (hm : w.conffileParam (cstr "maillog") = some log)
    (hd : w.disk.dir log = none) :
    w.openLog = .ok (none, w.onTail ({ · with f := none })) := by
  have hr : w.fs.openRead log = none := by
    rw [Fs.openRead, show w.fs.dir log = none from hd]
    rfl
  simp only [openLog, hm, hr]

theorem openLog_some {log : CStr} (hm : w.conffileParam (cstr "maillog") = some log)
    (hd : w.disk.dir log = some i) :
    w.openLog = .ok (some w.fs.nextFd, w.opened i) := by
  have hr : w.fs.openRead log = some (w.fs.nextFd, (w.opened i).fs) := by
    rw [Fs.openRead, show w.fs.dir log = some i from hd]
    rfl
  simp only [openLog, hm, hr]
  rfl

end World

/-- Closing a stream that was only read from changes no file. -/
theorem Midway.fclose (h : Midway W got fd i p q s) : s.fclose fd = s := by
  rw [World.fclose, Fs.close_reading (congrArg Stream.buf h.stream)]

theorem Follows.closeLog (h : Follows W got s) : s.closeLog = s := by
  unfold World.closeLog
  cases hf : s.tail.f with
  | none => rfl
  | some fd => exact (h.midway hf (by rw [World.cur, hf]; rfl)).fclose

/-- The held file has the name still, or has been read to its end. -/
def Leavable (W : Watch) (s : World) : Prop :=
  ∀ i p, s.cur = some (i, p) → s.disk.dir W.log ≠ some i → p = (s.disk.data i).length

@[simp] theorem World.cur_opened (s : World) (j : ℕ) : (s.opened j).cur = some (j, 0) := by
  simp [World.cur, World.opened]

namespace Follows

theorem f_ne_nextFd (h : Follows W got s) : s.tail.f ≠ some s.fs.nextFd :=
  fun hf => (h.fd_lt _ hf).1.ne rfl

theorem gone (h : Follows W got s) (hK : W.Kept P) (hl : Leavable W s)
    (hd : s.disk.dir W.log = none) :
    Follows W got (s.onTail ({ · with f := none })) where
  maillog := h.maillog
  suspicious := h.suspicious
  buff := h.buff
  last_le := h.last_le
  fd_lt := nofun
  upto := by
    have hu := h.upto.leave fun i p hc =>
      have hn : s.disk.dir W.log ≠ some i := hd ▸ nofun
      ⟨hl i p hc hn, hn⟩
    rwa [hd] at hu
  keep := by
    have hk := hK.reopen _ _ _ h.keep
    rwa [hd] at hk

/-- Opening the log leads back into the file held before, or to the start of another. -/
theorem midway_opened (h : Follows W got s) (hK : W.Kept P) (hl : Leavable W s)
    (hd : s.disk.dir W.log = some j) :
    ∃ p, (s.cur = some (j, p) ∨ p = 0 ∧ s.held ≠ some j) ∧
      Midway W got s.fs.nextFd j p 0 (s.opened j) := by
  have hk : W.keep s.disk s.clock (some j) := hd ▸ hK.reopen _ _ _ h.keep
  have hs : (s.opened j).fs.stream s.fs.nextFd = ⟨j, 0, []⟩ := Function.update_self _ _ _
  by_cases hj : s.held = some j
  · obtain ⟨⟨i, p⟩, hc, rfl⟩ := Option.map_eq_some_iff.mp hj
    exact ⟨p, Or.inl hc, h.maillog, h.suspicious, h.buff, h.last_le, rfl, Nat.lt_succ_self _, hs,
      Nat.zero_le _, hc ▸ h.upto, hk⟩
  · have hu := h.upto.leave fun i p hc => by
      have hn : s.disk.dir W.log ≠ some i := by
        rw [hd]
        rintro ⟨⟩
        exact hj (by rw [World.held, hc]; rfl)
      exact ⟨hl i p hc hn, hn⟩
    rw [hd] at hu
    exact ⟨0, Or.inr ⟨rfl, hj⟩, h.maillog, h.suspicious, h.buff, h.last_le, rfl,
      Nat.lt_succ_self _, hs, Nat.zero_le _, hu, hk⟩

end Follows

/-- The new stream ends up where the delivered bytes end, if another file than the one
held before is shorter than the position there. -/
theorem Midway.rely_tailReposition (h : Midway W got fd j p 0 s) (hp : p = 0 ∨ c = p)
    (hc : p = 0 → ∀ s t q, Midway W got fd j 0 0 s → Midway W got fd j 0 q t → A s t →
      0 < q → c = 0 ∨ q < c) :
    rely (Around W) A (Sound W) (tailReposition fd c) (fun _ t => Follows W got t) s := by
  unfold tailReposition
  rw [rely_bind]
  refine h.rely_act fun s₁ h₁ _ hA => ?_
  have h₂ := h₁.seeked le_rfl
  rw [h₁.fseek_fromEnd] at hA ⊢
  refine ⟨h₂.sound, ?_⟩
  rw [rely_bind]
  refine h₂.rely_read fun s₃ h₃ _ => ?_
  rw [h₃.tell]
  have hle : p ≤ (s₁.disk.data j).length := h₁.upto.le_length j p rfl
  have hback : ∀ r, r = p → rely (Around W) A (Sound W)
      (act (·.fseek fd r .set) >>= fun r => if r = -1 then halt (.exit 71) else pure ())
      (fun _ t => Follows W got t) s₃ := by
    rintro r rfl
    rw [rely_bind]
    refine h₃.rely_act fun s₄ h₄ _ _ => ?_
    rw [World.fseek_set]
    have h₅ := h₄.seeked (h₄.upto.le_length j r rfl)
    exact ⟨h₅.sound, h₅.follows⟩
  by_cases hlt : (s₁.disk.data j).length < c
  · rw [if_pos (Int.ofNat_lt.mpr hlt)]
    have hp0 : p = 0 := by omega
    exact hback 0 hp0.symm
  · rw [if_neg (mt Int.ofNat_lt.mp hlt)]
    refine hback c ?_
    rcases hp with rfl | hp
    · rcases Nat.eq_zero_or_pos (s₁.disk.data j).length with h0 | hpos
      · omega
      · rcases hc rfl _ _ _ h₁ h₂ hA hpos with h0 | hlt'
        · exact h0
        · omega
    · exact hp

/-- `tail_reopen`, called with the position in the file held so far. -/
theorem Follows.rely_tailReopen (h : Follows W got s) (hK : W.Kept P)
    (hA : ∀ s t, W.keep s.disk s.clock s.held →
      W.keep t.disk t.clock t.held → A s t → Benign W.log w s t)
    (hc : ∀ i p, s.cur = some (i, p) → c = p ∧ w.cur = some (i, p) ∧ w.tail.f = s.tail.f)
    (hc0 : s.cur = none → c = 0) :
    rely (Around W) A (Sound W) (tailReopen c) (fun _ t => Follows W got t) s := by
  unfold tailReopen
  rw [rely_bind, rely_modify]
  intro s₁ ha _
  have h₁ := h.around ha
  rw [h₁.closeLog]
  refine ⟨h₁.sound, ?_⟩
  rw [rely_bind]
  refine rely_attempt fun s₂ ha₂ => ?_
  have h₂ := h₁.around ha₂
  have hcur : s₂.cur = s.cur := ha₂.cur.trans ha.cur
  have htail : s₂.tail = s.tail := ha₂.tail.trans ha.tail
  cases hd : s₂.disk.dir W.log with
  | none =>
    refine ⟨_, _, World.openLog_none h₂.maillog hd, fun ha' => ?_⟩
    have hk : W.keep s₂.disk s₂.clock none := hd ▸ hK.reopen _ _ _ h₂.keep
    have hl : Leavable W s₂ := fun i p hi hn => by
      refine (hA _ _ h₂.keep hk ha').drained (i, p) hi (fun hf => ?_) hn
      rw [World.cur, ← hf] at hi
      cases hi
    have h₃ := h₂.gone hK hl hd
    refine ⟨h₃.sound, ?_⟩
    rw [rely_modify]
    intro s₄ ha₄ _
    have h₄ := h₃.around ha₄
    have h₅ := h₄.onTail (g := ({ · with f := none })) (congrArg Tail.f ha₄.tail).symm h₄.buff
      h₄.last_le
    exact ⟨h₅.sound, h₅⟩
  | some j =>
    refine ⟨_, _, World.openLog_some h₂.maillog hd, fun ha' => ?_⟩
    have hj : W.keep s₂.disk s₂.clock (some j) := hd ▸ hK.reopen _ _ _ h₂.keep
    have hk : W.keep (s₂.opened j).disk (s₂.opened j).clock (s₂.opened j).held := by
      rwa [World.held, World.cur_opened]
    have hl : Leavable W s₂ := fun i p hi hn =>
      (hA _ _ h₂.keep hk ha').drained (i, p) hi (Ne.symm h₂.f_ne_nextFd) hn
    obtain ⟨p, hp, h₃⟩ := h₂.midway_opened hK hl hd
    refine ⟨h₃.sound, h₃.rely_tailReposition ?_ ?_⟩
    · rcases hp with hi | ⟨rfl, -⟩
      · exact Or.inr (hc j p (hcur ▸ hi)).1
      · exact Or.inl rfl
    · rintro rfl s' t' q hs' ht' ha'' hq
      cases hi : s.cur with
      | none => exact Or.inl (hc0 hi)
      | some x =>
        obtain ⟨i, p⟩ := x
        obtain ⟨rfl, hwc, hwf⟩ := hc i p hi
        rcases hp with hp | ⟨-, hp⟩
        · obtain ⟨-, rfl⟩ := Prod.mk.inj (Option.some.inj (hi.symm.trans (hcur ▸ hp)))
          exact Or.inl rfl
        · refine (hA s' t' (hs'.sound.keep) (ht'.sound.keep) ha'').shorter (i, c) hwc
            (j, q) ht'.cur ?_ ?_ ?_
          · rw [ht'.f, hwf, ← htail]
            exact Ne.symm h₂.f_ne_nextFd
          · rintro rfl
            exact hp (by rw [World.held, hcur, hi]; rfl)
          · rw [hs'.cur, ht'.cur]
            intro he
            have he' := (Prod.mk.inj (Option.some.inj he)).2
            omega

/-! ### tail_read -/

/-- The buffer holds these bytes and has room for a NUL after them. -/
structure Loaded (bs : Bytes) (t : Tail) : Prop where
  length : t.tailBufflen = bs.length
  buff : ∃ r, r ≠ [] ∧ t.tailBuff = some (bs ++ r)

theorem Loaded.delivered {bs : Bytes} (h : Loaded bs s.tail) : s.delivered = bs := by
  obtain ⟨hl, r, -, hb⟩ := h
  rw [World.delivered, hb, hl]
  exact List.take_left

theorem Loaded.ne_nil {bs : Bytes} {t : Tail} (h : Loaded bs t) :
    ∃ b, t.tailBuff = some b ∧ b ≠ [] := by
  obtain ⟨-, r, hr, hb⟩ := h
  exact ⟨_, hb, List.append_ne_nil_of_right_ne_nil _ hr⟩

theorem Loaded.terminateTail {bs : Bytes} (h : Loaded bs s.tail) :
    ∃ g : Tail → Tail, s.terminateTail = .ok ((), s.onTail g) ∧ Loaded bs (g s.tail) ∧
      (g s.tail).f = s.tail.f ∧ (g s.tail).last = s.tail.last := by
  obtain ⟨hl, r, hr, hb⟩ := h
  have hlt : s.tail.tailBufflen < (bs ++ r).length := by
    have := List.length_pos_of_ne_nil hr
    rw [hl, List.length_append]
    omega
  refine ⟨fun t => { t with tailBuff := some ((bs ++ r).set s.tail.tailBufflen 0) }, ?_,
    ⟨hl, r.set 0 0, ?_, ?_⟩, rfl, rfl⟩
  · simp only [World.terminateTail, hb, if_pos hlt]
  · simpa using hr
  · rw [hl, List.set_append_right _ _ le_rfl, Nat.sub_self]

theorem length_reallocBytes {b : Option Bytes} {n : ℕ} (h : 0 < n) :
    ∃ b', reallocBytes b n = some b' ∧ b'.length = n := by
  refine ⟨_, if_neg h.ne', ?_⟩
  rw [List.length_append, List.length_take, List.length_replicate]
  omega

/-- `fread` finds all the bytes it asks for, which then are delivered. -/
theorem Midway.freadTail (h : Midway W got fd i p p s) {n : ℕ}
    (hn : p + n ≤ (s.disk.data i).length) (hl : s.tail.tailBufflen = n)
    {b : Bytes} (hb : s.tail.tailBuff = some b) (hlt : n < b.length) :
    ∃ bs, (s.freadTail fd).1 = n ∧ Loaded bs (s.freadTail fd).2.tail ∧
      Midway W (got ++ bs) fd i (p + n) (p + n) (s.freadTail fd).2 := by
  have hlen : (((s.fs.data i).drop p).take n).length = n := by
    rw [List.length_take, List.length_drop]
    have : p + n ≤ (s.fs.data i).length := hn
    omega
  have hget : s.fs.get fd n = (((s.fs.data i).drop p).take n, s.fs.seeked fd (p + n)) := by
    simp only [Fs.get, Fs.seeked, h.stream, hlen]
  have hr : (b.drop n) ≠ [] := by
    rw [Ne, List.drop_eq_nil_iff]
    omega
  simp only [World.freadTail, hl, hget, hlen, hb]
  refine ⟨_, trivial, ⟨hlen.symm, b.drop n, hr, rfl⟩, ?_⟩
  have hu := h.upto.read (Nat.le_add_right p n) hn
  rw [List.drop_take, Nat.add_sub_cancel_left] at hu
  exact
    { maillog := h.maillog
      suspicious := h.suspicious
      buff := ⟨_, rfl, List.append_ne_nil_of_right_ne_nil _ hr⟩
      last_le := h.last_le
      f := h.f
      fd_lt := h.fd_lt
      stream := by simp [Fs.seeked, h.stream]
      le_length := hn
      upto := hu
      keep := h.keep }

/-- The buffer has room for the new bytes and a NUL. -/
theorem growBuff_spec {t : Tail} {b : Bytes} (hb : t.tailBuff = some b) (hne : b ≠ [])
    (hlt : t.tailBufflen + 1 < uintRange) :
    ∃ b', (growBuff t).tailBuff = some b' ∧ t.tailBufflen < b'.length ∧
      (growBuff t).tailBufflen = t.tailBufflen ∧ (growBuff t).f = t.f ∧
      (growBuff t).last = t.last := by
  unfold growBuff
  by_cases hpos : t.tailBufflen > 0
  · obtain ⟨b', hb', hlen⟩ := length_reallocBytes (b := t.tailBuff) (Nat.succ_pos t.tailBufflen)
    rw [if_pos hpos, Nat.mod_eq_of_lt hlt]
    exact ⟨b', hb', hlen ▸ Nat.lt_succ_self _, rfl, rfl, rfl⟩
  · rw [if_neg hpos]
    have := List.length_pos_of_ne_nil hne
    exact ⟨b, hb, by omega, rfl, rfl, rfl⟩

/-- New bytes have been taken up to `q`. -/
structure Took (W : Watch) (got : Bytes) (fd i q : ℕ) (s t : World) : Prop where
  midway : Midway W (got ++ t.delivered) fd i q q t
  loaded : Loaded t.delivered t.tail
  last : t.tail.last = s.tail.last

/-- A new pause leaves what was delivered as it is. -/
theorem Midway.rely_paws {bs : Bytes} (h : Midway W (got ++ bs) fd i q q s)
    (hl : Loaded bs s.tail) (g g' : Tail → ℕ) :
    rely (Around W) A (Sound W)
      (do
        modify (·.onTail fun t => { t with paws := g t })
        modify (·.onTail fun t => { t with paws := g' t }))
      (fun _ t => Took W got fd i q s t) s := by
  have hstep : ∀ {s s'} (g : Tail → ℕ), Midway W (got ++ bs) fd i q q s → Loaded bs s.tail →
      Around W s s' → Midway W (got ++ bs) fd i q q (s'.onTail fun t => { t with paws := g t }) ∧
        Loaded bs (s'.onTail fun t => { t with paws := g t }).tail := by
    intro s s' g h hl ha
    have h' := h.around ha
    rw [← ha.tail] at hl
    exact ⟨h'.onTail rfl h'.buff h'.last_le, hl.length, hl.buff⟩
  rw [rely_bind, rely_modify]
  intro s₁ ha₁ _
  obtain ⟨h₁, hl₁⟩ := hstep g h hl ha₁
  refine ⟨h₁.sound, ?_⟩
  rw [rely_modify]
  intro s₂ ha₂ _
  obtain ⟨h₂, hl₂⟩ := hstep g' h₁ hl₁ ha₂
  have hd := hl₂.delivered
  refine ⟨h₂.sound, ?_, ?_, ha₂.last.trans ha₁.last⟩
  · rwa [hd]
  · rwa [hd]

theorem Midway.rely_tailPause {bs : Bytes} (h : Midway W (got ++ bs) fd i q q s)
    (hl : Loaded bs s.tail) :
    rely (Around W) A (Sound W) tailPause (fun _ t => Took W got fd i q s t) s := by
  unfold tailPause
  rw [rely_bind]
  refine h.rely_read fun s₁ h₁ ha => ?_
  have hl₁ : Loaded bs s₁.tail := ha.tail ▸ hl
  have hlast : ∀ t, Took W got fd i q s₁ t → Took W got fd i q s t := fun t ht =>
    ⟨ht.midway, ht.loaded, ht.last.trans ha.last⟩
  -- whatever the number of lines
  generalize linecount _ _ = lines
  apply rely_ite
  · intro _
    exact (h₁.rely_paws hl₁ _ _).mono fun _ => hlast
  · intro _
    exact (h₁.rely_paws hl₁ _ _).mono fun _ => hlast

/-- `fread` gets all the bytes it asks for. -/
theorem Midway.rely_tailFill (h : Midway W got fd i p p s) {n : ℕ}
    (hn : p + n ≤ (s.disk.data i).length) (hl : s.tail.tailBufflen = n)
    {b : Bytes} (hb : s.tail.tailBuff = some b) (hlt : n < b.length) :
    rely (Around W) A (Sound W) (tailFill fd) (fun _ t => Took W got fd i (p + n) s t) s := by
  unfold tailFill
  rw [rely_bind]
  refine h.rely_act fun s₁ h₁ ha₁ _ => ?_
  rw [← ha₁.tail] at hl hb
  obtain ⟨bs, hread, hl₂, h₂⟩ := h₁.freadTail (hn.trans (h.length_le ha₁)) hl hb hlt
  refine ⟨h₂.sound, ?_⟩
  rw [hread, rely_bind]
  refine h₂.rely_read fun s₃ h₃ ha₃ => ?_
  have hl₃ : s₃.tail.tailBufflen = n := by
    rw [ha₃.tail]
    exact hl
  rw [hl₃, if_neg (not_not_intro rfl), rely_bind]
  refine rely_attempt fun s₄ ha₄ => ?_
  have hl₄ : Loaded bs s₄.tail := by
    rw [ha₄.tail, ha₃.tail]
    exact hl₂
  obtain ⟨g, hg, hlg, hfg, hlast⟩ := hl₄.terminateTail
  have h₅ := (h₃.around ha₄).onTail hfg hlg.ne_nil (hlast.le.trans (h₃.around ha₄).last_le)
  refine ⟨(), _, hg, fun _ => ⟨h₅.sound, (h₅.rely_tailPause hlg).mono fun _ t ht =>
    ⟨ht.midway, ht.loaded, ?_⟩⟩⟩
  rw [ht.last, ← ha₁.tail]
  exact hlast.trans (ha₄.last.trans ha₃.last)

/-- The part of `tail_read` after the measurement delivers the bytes between `p` and `q`. -/
theorem Midway.rely_tailTake (h : Midway W got fd i p p s) (hpq : p ≤ q)
    (hq : q ≤ (s.disk.data i).length) (hfew : q + 1 < p + uintRange) :
    rely (Around W) A (Sound W) (tailTake fd p q) (fun _ t => Took W got fd i q s t) s := by
  obtain ⟨n, rfl⟩ := Nat.exists_eq_add_of_le hpq
  have hlt : n < uintRange := by omega
  have hn : (((p + n : ℕ) - p : ℤ) % uintRange).toNat = n := by
    rw [show ((p + n : ℕ) - p : ℤ) = n by omega, ← Int.natCast_emod, Int.toNat_natCast,
      Nat.mod_eq_of_lt hlt]
  unfold tailTake
  rw [rely_bind, rely_modify]
  intro s₁ ha₁ _
  rw [hn]
  have h₁ := (h.around ha₁).onTail (g := ({ · with tailBufflen := n })) rfl (h.around ha₁).buff
    (h.around ha₁).last_le
  refine ⟨h₁.sound, ?_⟩
  rw [rely_bind, rely_modify]
  intro s₂ ha₂ _
  have h₂ := h₁.around ha₂
  have hl₂ : s₂.tail.tailBufflen = n := ha₂.tail ▸ rfl
  obtain ⟨b, hb, hne⟩ := h₂.buff
  obtain ⟨b', hb', hroom, hlen, hf, hlast⟩ := growBuff_spec hb hne (by omega)
  have h₃ := h₂.onTail (g := growBuff) hf ⟨b', hb', List.ne_nil_of_length_pos (by omega)⟩
    (hlast.le.trans h₂.last_le)
  refine ⟨h₃.sound, ?_⟩
  rw [rely_bind]
  refine h₃.rely_read fun s₄ h₄ ha₄ => ?_
  have hb₄ : s₄.tail.tailBuff = some b' := ha₄.tail ▸ hb'
  have hl₄ : s₄.tail.tailBufflen = n := by
    rw [ha₄.tail]
    exact hlen.trans hl₂
  have hlast₄ : s₄.tail.last = s.tail.last := by
    rw [ha₄.tail]
    exact hlast.trans (ha₂.last.trans ha₁.last)
  rw [hb₄, if_neg (Option.some_ne_none b')]
  refine (h₄.rely_tailFill ?_ hl₄ hb₄ (hl₂ ▸ hroom)).mono fun _ t ht =>
    ⟨ht.midway, ht.loaded, ht.last.trans hlast₄⟩
  calc p + n ≤ (s.disk.data i).length := hq
    _ ≤ (s₁.disk.data i).length := h.length_le ha₁
    _ ≤ (s₂.disk.data i).length := h₁.length_le ha₂
    _ ≤ (s₄.disk.data i).length := h₃.length_le ha₄

theorem Midway.noteGrowth (h : Midway W got fd i p q s) (current eof : ℤ) :
    Midway W got fd i p q (s.noteGrowth current eof) := by
  unfold World.noteGrowth
  split
  · exact h.onTail rfl h.buff le_rfl
  · exact h

/-- A poll that took nothing. -/
theorem Follows.rely_taken_none (h : Follows W got s) :
    rely (Around W) A (Sound W)
      (do
        modify fun w => w.onTail ({ · with last := w.clock })
        modify (·.onTail ({ · with tailBufflen := 0 })))
      (fun _ t => Follows W (got ++ t.delivered) t) s := by
  rw [rely_bind, rely_modify]
  intro s₁ ha₁ _
  have h₁ := (h.around ha₁).onTail (g := ({ · with last := s₁.clock })) rfl (h.around ha₁).buff
    le_rfl
  refine ⟨h₁.sound, ?_⟩
  rw [rely_modify]
  intro s₂ ha₂ _
  have h₂ := (h₁.around ha₂).onTail (g := ({ · with tailBufflen := 0 })) rfl (h₁.around ha₂).buff
    (h₁.around ha₂).last_le
  refine ⟨h₂.sound, ?_⟩
  rw [show (s₂.onTail ({ · with tailBufflen := 0 })).delivered = [] from List.take_zero,
    List.append_nil]
  exact h₂

/-- `tail_read` returns with the invariant for what it delivered. -/
theorem Follows.rely_tailRead (h : Follows W got w) (hK : W.Kept P)
    (hA : ∀ s t, W.keep s.disk s.clock s.held →
      W.keep t.disk t.clock t.held → A s t → Benign W.log w s t) :
    rely (Around W) A (Sound W) tailRead (fun _ t => Follows W (got ++ t.delivered) t) w := by
  unfold tailRead
  rw [rely_bind, rely_read]
  intro s₁ ha₁ _
  have h₁ := h.around ha₁
  refine ⟨h₁.sound, ?_⟩
  cases hf : s₁.tail.f with
  | none =>
    have hc : s₁.cur = none := by rw [World.cur, hf]; rfl
    rw [rely_bind]
    refine (h₁.rely_tailReopen (c := 0) hK hA (fun i p hi => ?_) fun _ => rfl).mono
      fun _ t ht => ht.rely_taken_none
    rw [hc] at hi
    cases hi
  | some fd =>
    have hc : s₁.cur = some ((s₁.fs.stream fd).ino, (s₁.fs.stream fd).pos) := by
      rw [World.cur, hf]; rfl
    generalize (s₁.fs.stream fd).ino = i at hc
    generalize (s₁.fs.stream fd).pos = p at hc
    have hm₁ := h₁.midway hf hc
    rw [rely_bind]
    refine hm₁.rely_read fun s₂ h₂ ha₂ => ?_
    rw [h₂.tell, rely_bind]
    refine h₂.rely_act fun s₃ h₃ ha₃ hA₃ => ?_
    have h₄ := h₃.seeked le_rfl
    rw [h₃.fseek_fromEnd] at hA₃ ⊢
    refine ⟨h₄.sound, ?_⟩
    have hwf : w.tail.f = some fd := ha₁.tail ▸ hf
    have hwc : w.cur = some (i, p) := ha₁.cur ▸ hc
    have hfew : (s₃.disk.data i).length + 1 < p + uintRange := by
      have hb := (hA _ _ h₃.sound.keep h₄.sound.keep hA₃).few fd hwf
      rwa [h₄.stream, (h.midway hwf hwc).stream] at hb
    have h0 : ¬ (0 : ℤ) = -1 := by decide
    rw [if_neg h0, rely_bind]
    refine h₄.rely_read fun s₅ h₅ ha₅ => ?_
    rw [h₅.tell, rely_bind]
    refine h₅.rely_act fun s₆ h₆ ha₆ _ => ?_
    have hle : p ≤ (s₃.disk.data i).length := h₃.upto.le_length i p rfl
    have h₇ := h₆.seeked (h₆.upto.le_length i p rfl)
    rw [World.fseek_set]
    refine ⟨h₇.sound, ?_⟩
    rw [if_neg h0, rely_bind, rely_modify]
    intro s₈ ha₈ _
    have h₈ := h₇.around ha₈
    have h₉ := h₈.noteGrowth p (s₃.disk.data i).length
    refine ⟨h₉.sound, ?_⟩
    rw [rely_bind]
    refine rely_attempt fun s₁₀ ha₁₀ => ?_
    have h₁₀ := h₉.around ha₁₀
    refine ⟨_, s₁₀, by rw [World.isSuspicious, h₁₀.suspicious]; rfl, fun _ => ⟨h₁₀.sound, ?_⟩⟩
    refine rely_ite (fun _ => ?_) fun _ => ?_
    · rw [rely_bind]
      refine (h₁₀.follows.rely_tailReopen hK hA (fun j r hj => ?_) fun hn => ?_).mono
        fun _ t ht => ht.rely_taken_none
      · obtain ⟨rfl, rfl⟩ := Prod.mk.inj (Option.some.inj (h₁₀.cur.symm.trans hj))
        exact ⟨rfl, hwc, hwf.trans h₁₀.f.symm⟩
      · rw [h₁₀.cur] at hn
        cases hn
    · refine (h₁₀.rely_tailTake hle ?_ hfew).mono fun _ t ht => ht.midway.follows
      calc (s₃.disk.data i).length ≤ (s₅.disk.data i).length := h₄.length_le ha₅
        _ ≤ (s₆.disk.data i).length := h₅.length_le ha₆
        _ ≤ (s₈.disk.data i).length := h₇.length_le ha₈
        _ = ((s₈.noteGrowth p (s₃.disk.data i).length).disk.data i).length := by
          unfold World.noteGrowth; split <;> rfl
        _ ≤ (s₁₀.disk.data i).length := h₉.length_le ha₁₀

/-! ### Polls one after the other -/

/-- The buffers that successive polls deliver. -/
def polls (log : CStr) : List (List (List LogMove)) → Prog World (List Bytes)
  | [] => pure []
  | mss :: pss => do
    poll log mss
    let b ← read World.delivered
    let bs ← polls log pss
    pure (b :: bs)

/-- Every step of every poll meets `C`, which is also told where its poll began. -/
def EachStep (C : World → World → World → Prop) (log : CStr) :
    List (List (List LogMove)) → World → Prop
  | [], _ => True
  | mss :: pss, w =>
    ((poll log mss).trace w).IsChain (C w) ∧
      ∀ t, (poll log mss).run w = .done () t → EachStep C log pss t

section Polls

variable {C : World → World → World → Prop} {mss : List (List LogMove)}
  {pss : List (List (List LogMove))}

theorem run_polls_cons {log : CStr} {bs : List Bytes} {u : World} :
    (polls log (mss :: pss)).run w = .done bs u ↔
      ∃ t cs, (poll log mss).run w = .done () t ∧ (polls log pss).run t = .done cs u ∧
        bs = t.delivered :: cs := by
  rw [polls, run_bind]
  constructor
  · intro h
    cases hp : (poll log mss).run w with
    | halted e s => rw [hp] at h; cases h
    | done x t =>
      rw [hp, Outcome.bind_done, run_bind, run_read, Outcome.bind_done, run_bind] at h
      cases hr : (polls log pss).run t with
      | halted e s => rw [hr] at h; cases h
      | done cs s =>
        rw [hr] at h
        obtain ⟨rfl, rfl⟩ := Outcome.done.inj h
        exact ⟨t, cs, rfl, hr, rfl⟩
  · rintro ⟨t, cs, ht, hu, rfl⟩
    rw [ht, Outcome.bind_done, run_bind, run_read, Outcome.bind_done, run_bind, hu]
    rfl

theorem EachStep.cons {log : CStr} (h : ((poll log mss).trace w).IsChain (C w))
    (h' : EachStep C log pss ((poll log mss).run w).state) : EachStep C log (mss :: pss) w :=
  ⟨h, fun _ ht => Outcome.eq_state ht ▸ h'⟩

/-- The steps that meet `C` are benign where the watch's invariant holds. -/
def Watch.Guards (W : Watch) (C : World → World → World → Prop) : Prop :=
  ∀ w s t, W.keep w.disk w.clock w.held → W.keep s.disk s.clock s.held →
    W.keep t.disk t.clock t.held → C w s t → Benign W.log w s t

theorem run_poll (h : Follows W got w) (hK : W.Kept P) (hC : W.Guards C)
    (hms : ∀ ms ∈ mss, ∀ m ∈ ms, P m) (hc : ((poll W.log mss).trace w).IsChain (C w)) :
    ∃ t, (poll W.log mss).run w = .done () t ∧ Follows W (got ++ t.delivered) t ∧
      ∀ u ∈ (poll W.log mss).trace w, Sound W u := by
  have hA := fun s t => hC w s t h.keep
  have hr := h.rely_tailRead (A := C w) hK hA
  have hq : ∀ q ∈ mss.map (others W.log), ∀ s, Sound W s → (q.trace s).IsChain (C w) →
      ∃ s', q.run s = .done () s' ∧ Around W s s' ∧ ∀ t ∈ q.trace s, Sound W t := by
    intro q hq s hs hcq
    obtain ⟨ms, hm, rfl⟩ := List.mem_map.mp hq
    exact run_others hK (fun s m _ hk hk' ha => (hA _ _ hk hk' ha).spares_move) (hms ms hm) hs hcq
  obtain ⟨_, t, ht, hf, hs⟩ := hr.run_weave (Around.refl W) h.sound hq hc
  exact ⟨t, ht, hf, hs⟩

theorem run_polls (h : Follows W got w) (hK : W.Kept P) (hC : W.Guards C)
    (hms : ∀ mss ∈ pss, ∀ ms ∈ mss, ∀ m ∈ ms, P m) (hc : EachStep C W.log pss w) :
    ∃ bs t, (polls W.log pss).run w = .done bs t ∧ Follows W (got ++ bs.flatten) t ∧
      ∀ u ∈ (polls W.log pss).trace w, Sound W u := by
  induction pss generalizing w got with
  | nil =>
    refine ⟨[], w, rfl, by simpa using h, List.forall_mem_singleton.mpr h.sound⟩
  | cons mss pss ih =>
    obtain ⟨t, ht, hf, hs⟩ := run_poll h hK hC (hms mss List.mem_cons_self) hc.1
    obtain ⟨bs, u, hu, hf', hs'⟩ :=
      ih hf (fun mss' hm => hms mss' (List.mem_cons_of_mem _ hm)) (hc.2 t ht)
    refine ⟨t.delivered :: bs, u, run_polls_cons.mpr ⟨t, bs, ht, hu, rfl⟩, ?_, fun v hv => ?_⟩
    · rwa [List.flatten_cons, ← List.append_assoc]
    · rcases mem_trace_bind.mp hv with hv | ⟨_, t', ht', hv⟩
      · exact hs v hv
      · obtain ⟨-, rfl⟩ := Outcome.done.inj (ht.symm.trans ht')
        rcases List.mem_cons.mp hv with rfl | hv
        · exact hf.sound
        · have hv' : v ∈ (polls W.log pss >>= fun bs => pure (t.delivered :: bs)).trace t := hv
          rcases mem_trace_bind.mp hv' with hv | ⟨_, u', hu', hv⟩
          · exact hs' v hv
          · obtain ⟨-, rfl⟩ := Outcome.done.inj (hu.symm.trans hu')
            rw [List.mem_singleton.mp hv]
            exact hf'.sound

end Polls

end ExactDaemon
