/-
# The jobs of the server on its database

The server keeps text under text, so that its database holds a map of texts in encoded
form, and its jobs act on that map.
-/
import ImmuStore.RespSpec
import ImmuStore.Server
import ImmuStore.StoreSpec
import ImmuStore.TextPickle

open Resp Storage

namespace Server

variable {ext : Externals Text} {inClass : Text → Char → Bool} {order : ℕ} {h : Handle Text} {m : Meta}
  {c : Text → Option Bytes} {s : Text → Option Text}

/-- Text is encoded, and decoded again. -/
theorem textCodec_roundTrips : textCodec.RoundTrips utf8Encode := by
  refine ⟨fun _ => rfl, fun value => ?_⟩
  simp only [textCodec, utf8Decode?_utf8Encode]

/-! ## `KEYS` -/

/-- The pattern of the second path is a text that stands for itself, and a `*`. -/
theorem eq_plain_star {pattern : Text} (hlast : pattern.getLast? = some '*')
    (hpre : ∀ c ∈ pattern.dropLast, c ∉ globMetachars) :
    pattern = pattern.dropLast ++ ['*'] ∧ ∀ c ∈ pattern.dropLast, Fnmatch.Plain c := by
  refine ⟨(List.dropLast_append_getLast? '*' hlast).symm, fun c hc => ?_⟩
  have hnot := hpre c hc
  simp only [globMetachars, List.mem_cons, List.not_mem_nil, or_false, not_or] at hnot
  exact ⟨hnot.1, hnot.2.1, hnot.2.2.1⟩

/-- All paths of `_match_keys` give the keys that the pattern matches. -/
theorem matchKeys_spec (hopen : h.closed = false)
    (hattached : h.database.Attached ext order m c (stored utf8Encode s)) (pattern : Text) :
    ∃ db l, Database.refreshUnlocked ext h.database = .ok () db ∧ Represents l s ∧
      matchKeys ext inClass pattern h =
        .ok ((l.map Prod.fst).filter fun key => Fnmatch.fnmatchcase inClass key pattern)
          { h with database := db } := by
  have hkeys : ∀ pre : Option Text, (∀ p ∈ pre, textCodec.validKey p = true) →
      ∃ db l, Database.refreshUnlocked ext h.database = .ok () db ∧ Represents l s ∧
        Handle.call (DBDB.keys ext textCodec pre none none) h =
          .ok ((l.map Prod.fst).filter fun key => pre.all fun p => textCodec.startsWith key p)
            { h with database := db } := by
    intro pre hvalid
    obtain ⟨db, l, hrefresh, hl, hrun⟩ := hattached.keys textCodec_roundTrips hvalid
    exact ⟨db, l, hrefresh, hl, Handle.call_ok hopen hrun⟩
  obtain ⟨db, l, hrefresh, hl, hall⟩ := hkeys none fun p hp => by cases hp
  by_cases hstar : pattern = ['*']
  · refine ⟨db, l, hrefresh, hl, ?_⟩
    rw [matchKeys, if_pos hstar, hall, hstar]
    simp only [Option.all_none, Fnmatch.fnmatchcase_star]
  by_cases hplain : pattern.getLast? = some '*' ∧ pattern.dropLast ≠ [] ∧
      ∀ c ∈ pattern.dropLast, c ∉ globMetachars
  · obtain ⟨hlast, hne, hpre⟩ := hplain
    obtain ⟨hpattern, hchars⟩ := eq_plain_star hlast hpre
    obtain ⟨db, l, hrefresh, hl, hrun⟩ := hkeys (some pattern.dropLast) fun p hp => by
      cases hp
      simpa [textCodec] using hne
    refine ⟨db, l, hrefresh, hl, ?_⟩
    have hmatch : ∀ key, Fnmatch.fnmatchcase inClass key pattern = pattern.dropLast.isPrefixOf key := by
      intro key
      conv_lhs => rw [hpattern]
      exact Fnmatch.fnmatchcase_plain_star inClass hchars key
    simp only [matchKeys, if_neg hstar, if_pos (⟨hlast, hne, hpre⟩ : _ ∧ _ ∧ _), hrun, hmatch]
    rfl
  · refine ⟨db, l, hrefresh, hl, ?_⟩
    simp only [matchKeys, if_neg hstar, if_neg hplain, run_bind, hall, Option.all_none, List.filter_true,
      run_pure]

/-- **`KEYS` lists the keys that the pattern matches.**  On every database that texts were
written to, whatever was committed, staged or recovered before: `_match_keys` returns, in
increasing order, exactly the keys that `fnmatchcase` matches with the pattern, whichever
path it takes. -/
theorem keys_agree_with_glob (ext : Externals Text) (inClass : Text → Char → Bool) (order : ℕ)
    {db0 db : Database Text} (hnew : Database.connect ext (.blank order (.powerOn .empty)) = .ok () db0)
    (hrun : Relation.ReflTransGen (Session.Step ext order)
      (.running db0 (fun _ => none) fun _ => none) (.running db c (stored utf8Encode s)))
    (pattern : Text) :
    ∃ keys h, matchKeys ext inClass pattern (.ofDatabase db) = .ok keys h ∧ keys.Pairwise (· < ·) ∧
      ∀ key, key ∈ keys ↔ s key ≠ none ∧ Fnmatch.fnmatchcase inClass key pattern = true := by
  have hrunning : db.Running ext order c (stored utf8Encode s) := Session.inv_of_run hnew hrun
  obtain ⟨db', l, -, hl, hmatch⟩ := matchKeys_spec (h := .ofDatabase db) rfl hrunning.attached pattern
  refine ⟨_, _, hmatch, ?_, fun key => ?_⟩
  · exact ((List.pairwise_map.mpr hl.increasing).sublist List.filter_sublist)
  · rw [List.mem_filter, List.mem_map]
    refine and_congr_left fun _ => ⟨?_, fun hkey => ?_⟩
    · rintro ⟨⟨k, value⟩, he, rfl⟩
      rw [(hl.mem_iff k value).mp he]
      simp
    · obtain ⟨value, hvalue⟩ := Option.ne_none_iff_exists'.mp hkey
      exact ⟨(key, value), (hl.mem_iff key value).mpr hvalue, rfl⟩

/-- One key, and a pattern for it. -/
theorem keys_agree_with_glob_sample :
    ∃ (db0 db : Database Text) (keys : List Text) (h : Handle Text),
      Database.connect textExt (.blank 64 (.powerOn .empty)) = .ok () db0 ∧
      Relation.ReflTransGen (Session.Step textExt 64)
        (.running db0 (fun _ => none) fun _ => none)
        (.running db (fun _ => none) (stored utf8Encode (assign (fun _ => none) ['a', 'b'] (some ['x'])))) ∧
      matchKeys textExt (fun _ _ => false) ['a', '*'] (.ofDatabase db) = .ok keys h ∧
      ['a', 'b'] ∈ keys := by
  obtain ⟨d, t, hnew, -⟩ := Database.connect_new textExt (by decide : 3 ≤ 64)
  obtain ⟨db, hrun⟩ : ∃ db, Relation.ReflTransGen (Session.Step textExt 64)
      (.running ⟨d, initialMeta, false, t⟩ (fun _ => none) (stored utf8Encode fun _ => none))
      (.running db (fun _ => none)
        (stored utf8Encode (assign (fun _ => none) ['a', 'b'] (some ['x'])))) := by
    rw [← applyTo_stored_set]
    exact ⟨_, .single (.update (.set ['a', 'b'] (utf8Encode ['x'])))⟩
  obtain ⟨keys, h, hmatch, -, hmem⟩ :=
    keys_agree_with_glob textExt (fun _ _ => false) 64 hnew hrun ['a', '*']
  exact ⟨_, _, keys, h, hnew, hrun, hmatch, (hmem _).mpr ⟨by simp, by decide⟩⟩

end Server
