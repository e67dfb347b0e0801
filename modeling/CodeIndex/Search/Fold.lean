import CodeIndex.Search.WordChar

/-!
The form in which words are compared: lower case, and Latin letters without their accent. Only
letters with a single accent lose it; the combining accents count for nothing.
-/
namespace CodeIndex.Search

/-- Runs of letters that fold to one and the same letter. -/
def baseRuns : List (Nat × Nat × Nat) := [
  (192, 197, 97), (200, 203, 101), (204, 207, 105), (210, 214, 111), (217, 220, 117),
  (224, 229, 97), (232, 235, 101), (236, 239, 105), (242, 246, 111), (249, 252, 117),
  (256, 261, 97), (262, 269, 99), (270, 271, 100), (274, 283, 101), (284, 291, 103),
  (292, 293, 104), (296, 304, 105), (308, 309, 106), (310, 311, 107), (313, 318, 108),
  (323, 328, 110), (332, 337, 111), (340, 345, 114), (346, 353, 115), (354, 357, 116),
  (360, 371, 117), (372, 373, 119), (374, 376, 121), (377, 382, 122), (416, 417, 111),
  (431, 432, 117), (452, 453, 454), (455, 456, 457), (458, 459, 460), (461, 462, 97),
  (463, 464, 105), (465, 466, 111), (467, 468, 117), (486, 487, 103), (488, 489, 107),
  (490, 491, 111), (497, 498, 499), (500, 501, 103), (504, 505, 110), (512, 515, 97),
  (516, 519, 101), (520, 523, 105), (524, 527, 111), (528, 531, 114), (532, 535, 117),
  (536, 537, 115), (538, 539, 116), (542, 543, 104), (550, 551, 97), (552, 553, 101),
  (558, 559, 111), (562, 563, 121), (7680, 7681, 97), (7682, 7687, 98), (7690, 7699, 100),
  (7704, 7707, 101), (7710, 7711, 102), (7712, 7713, 103), (7714, 7723, 104), (7724, 7725, 105),
  (7728, 7733, 107), (7734, 7735, 108), (7738, 7741, 108), (7742, 7747, 109), (7748, 7755, 110),
  (7764, 7767, 112), (7768, 7771, 114), (7774, 7775, 114), (7776, 7779, 115), (7786, 7793, 116),
  (7794, 7799, 117), (7804, 7807, 118), (7808, 7817, 119), (7818, 7821, 120), (7822, 7823, 121),
  (7824, 7829, 122), (7840, 7843, 97), (7864, 7869, 101), (7880, 7883, 105), (7884, 7887, 111),
  (7908, 7911, 117), (7922, 7929, 121)]

/-- Where other letters stand that fold to another one: first and last of them, the step between
them and the distance to their folded forms. -/
def foldRuns : List (Nat × Nat × Nat × Int) := [
  (181, 181, 1, 775), (198, 198, 1, 32), (199, 199, 1, -100), (208, 208, 1, 32), (209, 209, 1, -99),
  (216, 216, 1, 32), (221, 221, 1, -100), (222, 222, 1, 32), (231, 231, 1, -132),
  (241, 241, 1, -131), (253, 253, 1, -132), (255, 255, 1, -134), (272, 272, 1, 1), (294, 294, 1, 1),
  (306, 306, 1, 1), (319, 321, 2, 1), (330, 330, 1, 1), (338, 338, 1, 1), (358, 358, 1, 1),
  (383, 383, 1, -268), (385, 385, 1, 210), (386, 388, 2, 1), (390, 390, 1, 206), (391, 391, 1, 1),
  (393, 394, 1, 205), (395, 395, 1, 1), (398, 398, 1, 79), (399, 399, 1, 202), (400, 400, 1, 203),
  (401, 401, 1, 1), (403, 403, 1, 205), (404, 404, 1, 207), (406, 406, 1, 211), (407, 407, 1, 209),
  (408, 408, 1, 1), (412, 412, 1, 211), (413, 413, 1, 213), (415, 415, 1, 214), (418, 420, 2, 1),
  (422, 422, 1, 218), (423, 423, 1, 1), (425, 425, 1, 218), (428, 428, 1, 1), (430, 430, 1, 218),
  (433, 434, 1, 217), (435, 437, 2, 1), (439, 439, 1, 219), (440, 440, 1, 1), (444, 444, 1, 1),
  (469, 475, 2, 1), (478, 484, 2, 1), (492, 494, 2, 1), (496, 496, 1, -390), (502, 502, 1, -97),
  (503, 503, 1, -56), (506, 510, 2, 1), (540, 540, 1, 1), (544, 544, 1, -130), (546, 548, 2, 1),
  (554, 556, 2, 1), (560, 560, 1, 1), (570, 570, 1, 10795), (571, 571, 1, 1), (573, 573, 1, -163),
  (574, 574, 1, 10792), (577, 577, 1, 1), (579, 579, 1, -195), (580, 580, 1, 69), (581, 581, 1, 71),
  (582, 590, 2, 1), (880, 882, 2, 1), (886, 886, 1, 1), (902, 902, 1, 38), (904, 906, 1, 37),
  (908, 908, 1, 64), (910, 911, 1, 63), (913, 929, 1, 32), (931, 939, 1, 32), (962, 962, 1, 1),
  (975, 975, 1, 8), (976, 976, 1, -30), (977, 977, 1, -25), (981, 981, 1, -15), (982, 982, 1, -22),
  (984, 1006, 2, 1), (1008, 1008, 1, -54), (1009, 1009, 1, -48), (1012, 1012, 1, -60),
  (1013, 1013, 1, -64), (1015, 1015, 1, 1), (1017, 1017, 1, -7), (1018, 1018, 1, 1),
  (1021, 1023, 1, -130), (1024, 1039, 1, 80), (1040, 1071, 1, 32), (1120, 1152, 2, 1),
  (1162, 1214, 2, 1), (1216, 1216, 1, 15), (1217, 1229, 2, 1), (1232, 1318, 2, 1),
  (1329, 1366, 1, 48), (4256, 4293, 1, 7264), (4295, 4295, 1, 7264), (4301, 4301, 1, 7264),
  (7688, 7688, 1, 1), (7700, 7702, 2, 1), (7708, 7708, 1, 1), (7726, 7726, 1, 1),
  (7736, 7736, 1, 1), (7756, 7762, 2, 1), (7772, 7772, 1, 1), (7780, 7784, 2, 1),
  (7800, 7802, 2, 1), (7830, 7830, 1, -7726), (7831, 7831, 1, -7715), (7832, 7832, 1, -7713),
  (7833, 7833, 1, -7712), (7835, 7835, 1, -7720), (7838, 7838, 1, -7615), (7844, 7862, 2, 1),
  (7870, 7878, 2, 1), (7888, 7906, 2, 1), (7912, 7920, 2, 1), (7930, 7934, 2, 1),
  (7944, 7951, 1, -8), (7960, 7965, 1, -8), (7976, 7983, 1, -8), (7992, 7999, 1, -8),
  (8008, 8013, 1, -8), (8025, 8031, 2, -8), (8040, 8047, 1, -8), (8072, 8079, 1, -8),
  (8088, 8095, 1, -8), (8104, 8111, 1, -8), (8120, 8121, 1, -8), (8122, 8123, 1, -74),
  (8124, 8124, 1, -9), (8126, 8126, 1, -7173), (8136, 8139, 1, -86), (8140, 8140, 1, -9),
  (8152, 8153, 1, -8), (8154, 8155, 1, -100), (8168, 8169, 1, -8), (8170, 8171, 1, -112),
  (8172, 8172, 1, -7), (8184, 8185, 1, -128), (8186, 8187, 1, -126), (8188, 8188, 1, -9),
  (8486, 8486, 1, -7517), (8490, 8490, 1, -8383), (8491, 8491, 1, -8394), (8498, 8498, 1, 28),
  (8544, 8559, 1, 16), (8579, 8579, 1, 1), (11264, 11310, 1, 48), (11360, 11360, 1, 1),
  (11362, 11362, 1, -10743), (11363, 11363, 1, -3814), (11364, 11364, 1, -10727),
  (11367, 11371, 2, 1), (11373, 11373, 1, -10780), (11374, 11374, 1, -10749),
  (11375, 11375, 1, -10783), (11376, 11376, 1, -10782), (11378, 11378, 1, 1), (11381, 11381, 1, 1),
  (11390, 11391, 1, -10815), (11392, 11490, 2, 1), (11499, 11501, 2, 1), (11506, 11506, 1, 1),
  (42560, 42604, 2, 1), (42624, 42646, 2, 1), (42786, 42798, 2, 1), (42802, 42862, 2, 1),
  (42873, 42875, 2, 1), (42877, 42877, 1, -35332), (42878, 42886, 2, 1), (42891, 42891, 1, 1),
  (42893, 42893, 1, -42280), (42896, 42898, 2, 1), (42912, 42920, 2, 1), (42922, 42922, 1, -42308),
  (65313, 65338, 1, 32), (66560, 66599, 1, 40)]

def foldCode (n : Nat) : Nat :=
  if n < 128 then (if 65 ≤ n && n ≤ 90 then n + 32 else n)
  else
    match baseRuns.find? fun (low, high, _) => low ≤ n && n ≤ high with
    | some (_, _, base) => base
    | none =>
      match foldRuns.find? fun (low, high, step, _) =>
          low ≤ n && n ≤ high && (n - low) % step == 0 with
      | some (_, _, _, distance) => ((n : Int) + distance).toNat
      | none => n

/-- A character as it is compared; nothing for an accent of its own. -/
def fold (c : Char) : List Char := if isAccent c then [] else [Char.ofNat (foldCode c.toNat)]

end CodeIndex.Search
