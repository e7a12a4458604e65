import GhostDag.Lib.Binary32

/-!
# GhostDag.Graphene.Params

The sizes that the vendored library looks up for a table
(`CIbltParams` of `thirdparty/iblt.h`).

Whatever is looked up, there are at least two hashes, and more entries than
keys (`one_lt_numhashes`, `le_overhead`).
-/

namespace GhostDag

/-- `IbltParamItem`. -/
structure IbltParamItem where
  overhead : ℚ
  numhashes : Nat

namespace CIbltParams

/-- `CIbltParams::paramMap`, whose keys are 1, 2, 3 and so on: the overhead in
millionths, and the number of hashes. -/
def paramMap : List (Nat × Nat) :=
  [(3000000, 3), (8000000, 8), (6000000, 6), (5250000, 7), (4800000, 6), (4000000, 6),
   (3857143, 9), (3500000, 7), (3333333, 6), (3200000, 8), (3181818, 5), (2916667, 7),
   (2769231, 6), (2571429, 6), (2800000, 6), (2625000, 6), (2470588, 6), (2500000, 5),
   (2368421, 5), (2400000, 6), (2285714, 6), (2272727, 5), (2173913, 5), (2250000, 6),
   (2200000, 5), (2115385, 5), (2037037, 5), (2142857, 5), (2068966, 5), (2000000, 5),
   (2096774, 5), (2031250, 5), (2121212, 5), (2058824, 5), (2000000, 5), (1944444, 5),
   (2027027, 5), (1973684, 5), (1923077, 5), (1875000, 5), (1951220, 5), (1904762, 5),
   (1860465, 5), (1931818, 5), (1888889, 5), (1847826, 5), (1914894, 5), (1875000, 5),
   (1836735, 5), (1800000, 5), (1862745, 5), (1826923, 5), (1811321, 4), (1851852, 4),
   (1818182, 5), (1785714, 4), (1824561, 4), (1810345, 5), (1779661, 5), (1750000, 5),
   (1803279, 5), (1774194, 5), (1746032, 5), (1750000, 4), (1769231, 5), (1696970, 4),
   (1731343, 4), (1764706, 4), (1739130, 4), (1657143, 4), (1746479, 4), (1666667, 4),
   (1643836, 4), (1675676, 4), (1653333, 4), (1684211, 4), (1610390, 4), (1692308, 4),
   (1620253, 4), (1600000, 4), (1629630, 4), (1609756, 4), (1638554, 4), (1619048, 4),
   (1647059, 4), (1581395, 4), (1655172, 4), (1636364, 4), (1617978, 4), (1600000, 4),
   (1626374, 4), (1608696, 4), (1591398, 4), (1574468, 4), (1557895, 4), (1583333, 4),
   (1608247, 4), (1591837, 4), (1575758, 4), (1560000, 4), (1584158, 4), (1568627, 4),
   (1592233, 4), (1576923, 4), (1561905, 4), (1584906, 4), (1532710, 4), (1555556, 4),
   (1541284, 4), (1563636, 4), (1549550, 4), (1535714, 4), (1557522, 4), (1543860, 4),
   (1565217, 4), (1551724, 4), (1538462, 4), (1559322, 4), (1546218, 4), (1533333, 4),
   (1520661, 4), (1540984, 4), (1528455, 4), (1548387, 4), (1536000, 4), (1555556, 4),
   (1543307, 4), (1531250, 4), (1519380, 4), (1507692, 4), (1526718, 4), (1515152, 4),
   (1503759, 4), (1522388, 4), (1511111, 4), (1529412, 4), (1518248, 4), (1507246, 4),
   (1525180, 4), (1514286, 4), (1503546, 4), (1492958, 4), (1510490, 4), (1500000, 4),
   (1517241, 4), (1506849, 4), (1523810, 4), (1513514, 4), (1503356, 4), (1493333, 4),
   (1483444, 4), (1500000, 4), (1490196, 4), (1506494, 4), (1496774, 4), (1487179, 4),
   (1503185, 4), (1493671, 4), (1484277, 4), (1475000, 4), (1490683, 4), (1506173, 4),
   (1496933, 4), (1487805, 4), (1503030, 4), (1493976, 4), (1485030, 4), (1476190, 4),
   (1491124, 4), (1482353, 4), (1473684, 4), (1488372, 4), (1479769, 4), (1471264, 4),
   (1485714, 4), (1477273, 4), (1468927, 4), (1483146, 4), (1474860, 4), (1488889, 4),
   (1480663, 4), (1472527, 4), (1464481, 4), (1478261, 4), (1470270, 4), (1462366, 4),
   (1475936, 4), (1468085, 4), (1481481, 4), (1473684, 4), (1465969, 4), (1479167, 4),
   (1471503, 4), (1463918, 4), (1456410, 4), (1469388, 4), (1461929, 4), (1474747, 4),
   (1467337, 4), (1460000, 4), (1472637, 4), (1465347, 4), (1458128, 4), (1470588, 4),
   (1463415, 4), (1456311, 4), (1468599, 4), (1461538, 4), (1473684, 4), (1466667, 4),
   (1459716, 4), (1452830, 4), (1464789, 4), (1457944, 4), (1451163, 4), (1462963, 4),
   (1456221, 4), (1467890, 4), (1461187, 4), (1454545, 4), (1447964, 4), (1441441, 4),
   (1452915, 4), (1446429, 4), (1457778, 4), (1451327, 4), (1444934, 4), (1456140, 4),
   (1449782, 4), (1460870, 4), (1454545, 4), (1448276, 4), (1459227, 4), (1452991, 4),
   (1446809, 4), (1440678, 4), (1451477, 4), (1445378, 4), (1456067, 4), (1450000, 4),
   (1443983, 4), (1438017, 4), (1448560, 4), (1442623, 4), (1453061, 4), (1447154, 4),
   (1441296, 4), (1435484, 4), (1445783, 4), (1440000, 4), (1434263, 4), (1444444, 4),
   (1438735, 4), (1433071, 4), (1443137, 4), (1437500, 4), (1431907, 4), (1441860, 4),
   (1436293, 4), (1430769, 4), (1440613, 4), (1435115, 4), (1444867, 4), (1439394, 4),
   (1433962, 4), (1443609, 4), (1438202, 4), (1432836, 4), (1427509, 4), (1437037, 4),
   (1431734, 4), (1441176, 4), (1435897, 4), (1430657, 4), (1425455, 4), (1434783, 4),
   (1429603, 4), (1438849, 4), (1433692, 4), (1428571, 4), (1437722, 4), (1432624, 4),
   (1427562, 4), (1422535, 4), (1431579, 4), (1440559, 4), (1435540, 4), (1430556, 4),
   (1425606, 4), (1420690, 4), (1429553, 4), (1424658, 4), (1433447, 4), (1428571, 4),
   (1423729, 4), (1432432, 4), (1427609, 4), (1422819, 4), (1431438, 4), (1426667, 4),
   (1421927, 4), (1430464, 4), (1425743, 4), (1421053, 4), (1429508, 4), (1424837, 4),
   (1433225, 4), (1428571, 4), (1423948, 4), (1432258, 4), (1427653, 4), (1423077, 4),
   (1431310, 4), (1426752, 4), (1422222, 4), (1417722, 4), (1425868, 4), (1421384, 4),
   (1416928, 4), (1425000, 4), (1420561, 4), (1428571, 4), (1424149, 4), (1419753, 4),
   (1427692, 4), (1423313, 4), (1418960, 4), (1414634, 4), (1422492, 4), (1418182, 4),
   (1413897, 4), (1421687, 4), (1417417, 4), (1413174, 4), (1420896, 4), (1416667, 4),
   (1412463, 4), (1420118, 4), (1415929, 4), (1411765, 4), (1419355, 4), (1415205, 4),
   (1422741, 4), (1418605, 4), (1414493, 4), (1410405, 4), (1417867, 4), (1413793, 4),
   (1421203, 4), (1417143, 4), (1413105, 4), (1420455, 4), (1416431, 4), (1412429, 4),
   (1408451, 4), (1415730, 4), (1411765, 4), (1407821, 4), (1415042, 4), (1411111, 4),
   (1407202, 4), (1414365, 4), (1410468, 4), (1417582, 4), (1413699, 4), (1409836, 4),
   (1416894, 4), (1413043, 4), (1409214, 4), (1405405, 4), (1412399, 4), (1408602, 4),
   (1415550, 4), (1411765, 4), (1408000, 4), (1414894, 4), (1411141, 4), (1407407, 4),
   (1403694, 4), (1410526, 4), (1406824, 4), (1413613, 4), (1409922, 4), (1406250, 4),
   (1402597, 4), (1409326, 4), (1405685, 4), (1402062, 4), (1408740, 4), (1405128, 4),
   (1411765, 4), (1408163, 4), (1404580, 4), (1411168, 4), (1407595, 4), (1404040, 4),
   (1410579, 4), (1407035, 4), (1403509, 4), (1410000, 4), (1406484, 4), (1412935, 4),
   (1399504, 4), (1405941, 4), (1402469, 4), (1408867, 4), (1405405, 4), (1401961, 4),
   (1408313, 4), (1404878, 4), (1401460, 4), (1407767, 4), (1404358, 4), (1400966, 4),
   (1407229, 4), (1403846, 4), (1400480, 4), (1406699, 4), (1403341, 4), (1400000, 4),
   (1406176, 4), (1393365, 4), (1399527, 4), (1405660, 4), (1402353, 4), (1399061, 4),
   (1395785, 4), (1401869, 4), (1398601, 4), (1404651, 4), (1401392, 4), (1398148, 4),
   (1394919, 4), (1400922, 4), (1397701, 4), (1403670, 4), (1400458, 4), (1397260, 4),
   (1403189, 4), (1400000, 4), (1396825, 4), (1393665, 4), (1399549, 4), (1396396, 4),
   (1402247, 4), (1399103, 4), (1395973, 4), (1401786, 4), (1398664, 4), (1404444, 4),
   (1401330, 4), (1398230, 4), (1395143, 4), (1400881, 4), (1397802, 4), (1394737, 4),
   (1400438, 4), (1397380, 4), (1394336, 4), (1400000, 4), (1396963, 4), (1393939, 4),
   (1390929, 4), (1396552, 4), (1393548, 4), (1399142, 4), (1396146, 4), (1393162, 4),
   (1398721, 4), (1404255, 4), (1392781, 4), (1398305, 4), (1395349, 4), (1400844, 4),
   (1389474, 4), (1394958, 4), (1392034, 4), (1397490, 4), (1394572, 4), (1391667, 4),
   (1397089, 4), (1394191, 4), (1399586, 4), (1396694, 4), (1393814, 4), (1390947, 4),
   (1388090, 4), (1393443, 4), (1390593, 4), (1395918, 4), (1393075, 4), (1390244, 4),
   (1395538, 4), (1392713, 4), (1389899, 4), (1395161, 4), (1392354, 4), (1397590, 4),
   (1394790, 4), (1392000, 4), (1389222, 4), (1394422, 4), (1391650, 4), (1388889, 4),
   (1386139, 4), (1391304, 4), (1388560, 4), (1393701, 4), (1390963, 4), (1388235, 4),
   (1393346, 4), (1390625, 4), (1387914, 4), (1392996, 4), (1390291, 4), (1387597, 4),
   (1392650, 4), (1389961, 4), (1394990, 4), (1392308, 4), (1389635, 4), (1386973, 4),
   (1391969, 4), (1389313, 4), (1394286, 4), (1391635, 4), (1388994, 4), (1386364, 4),
   (1391304, 4), (1388679, 4), (1386064, 4), (1383459, 4), (1388368, 4), (1393258, 4),
   (1390654, 4), (1388060, 4), (1385475, 4), (1390335, 4), (1387755, 4), (1385185, 4),
   (1390018, 4), (1387454, 4), (1384899, 4), (1389706, 4), (1387156, 4), (1384615, 4),
   (1389397, 4), (1386861, 4), (1391621, 4), (1381818, 4), (1386570, 4), (1384058, 4),
   (1381555, 4), (1386282, 4), (1383784, 4), (1388489, 4), (1385996, 4), (1390681, 4),
   (1388193, 4), (1385714, 4), (1383244, 4), (1387900, 4), (1385435, 4), (1382979, 4),
   (1387611, 4), (1385159, 4), (1382716, 4), (1380282, 4), (1384886, 4), (1382456, 4),
   (1387040, 4), (1384615, 4), (1382199, 4), (1386760, 4), (1384348, 4), (1381944, 4),
   (1379549, 4), (1384083, 4), (1381693, 4), (1386207, 4), (1383821, 4), (1388316, 4),
   (1385935, 4), (1383562, 4), (1388034, 4), (1385666, 4), (1383305, 4), (1380952, 4),
   (1385399, 4), (1376271, 4), (1380711, 4), (1378378, 4), (1382799, 4), (1380471, 4),
   (1384874, 4), (1382550, 4), (1386935, 4), (1384615, 4), (1382304, 4), (1380000, 4),
   (1384359, 4), (1382060, 4), (1379768, 4), (1384106, 4), (1381818, 4), (1379538, 4),
   (1383855, 4), (1381579, 4), (1379310, 4), (1383607, 4), (1381342, 4), (1379085, 4),
   (1383361, 4), (1381107, 4), (1385366, 4), (1383117, 4), (1380875, 4), (1385113, 4),
   (1382876, 4), (1380645, 4), (1378422, 4), (1382637, 4), (1380417, 4), (1378205, 4),
   (1382400, 4), (1380192, 4), (1377990, 4), (1375796, 4), (1379968, 4), (1384127, 4),
   (1381933, 4), (1379747, 4), (1377567, 4), (1381703, 4), (1379528, 4), (1377358, 4),
   (1381476, 4), (1379310, 4), (1377152, 4), (1375000, 4), (1379095, 4), (1376947, 4),
   (1381026, 4), (1378882, 4), (1376744, 4), (1380805, 4), (1378671, 4), (1376543, 4),
   (1380586, 4), (1378462, 4), (1382488, 4), (1374233, 4), (1378254, 4), (1376147, 4),
   (1380153, 4), (1378049, 4), (1382040, 4), (1379939, 4), (1377845, 4), (1375758, 4),
   (1379728, 4), (1377644, 4), (1375566, 4), (1373494, 4), (1377444, 4), (1375375, 4),
   (1379310, 4), (1377246, 4), (1375187, 4), (1379104, 4), (1377049, 4), (1375000, 4),
   (1372957, 4), (1376855, 4), (1374815, 4), (1378698, 4), (1376662, 4), (1374631, 4),
   (1378498, 4), (1376471, 4), (1374449, 4), (1372434, 4), (1376281, 4), (1374269, 4),
   (1378102, 4), (1376093, 4), (1374090, 4), (1377907, 4), (1375907, 4), (1373913, 4),
   (1371925, 4), (1375723, 4), (1373737, 4), (1377522, 4), (1375540, 4), (1373563, 4),
   (1377331, 4), (1375358, 4), (1379113, 4), (1377143, 4), (1375178, 4), (1373219, 4),
   (1376956, 4), (1375000, 4), (1373050, 4), (1376771, 4), (1374823, 4), (1372881, 4),
   (1376587, 4), (1374648, 4), (1372714, 4), (1376404, 4), (1374474, 4), (1372549, 4),
   (1370629, 4), (1374302, 4), (1372385, 4), (1376045, 4), (1374131, 4), (1372222, 4),
   (1370319, 4), (1373961, 4), (1377593, 4), (1375691, 4), (1373793, 4), (1371901, 4),
   (1370014, 4), (1373626, 4), (1371742, 4), (1375342, 4), (1373461, 4), (1371585, 4),
   (1369714, 4), (1373297, 4), (1371429, 4), (1375000, 4), (1373134, 4), (1371274, 4),
   (1374831, 4), (1372973, 4), (1371120, 4), (1374663, 4), (1372813, 4), (1370968, 4),
   (1369128, 4), (1372654, 4), (1370817, 4), (1368984, 4), (1372497, 4), (1370667, 4),
   (1374168, 4), (1372340, 4), (1370518, 4), (1374005, 4), (1372185, 4), (1370370, 4),
   (1373844, 4), (1372032, 4), (1370224, 4), (1368421, 4), (1371879, 4), (1375328, 4),
   (1368283, 4), (1371728, 4), (1369935, 4), (1373368, 4), (1371578, 4), (1369792, 4),
   (1373212, 4), (1371429, 4), (1369650, 4), (1367876, 4), (1371281, 4), (1369509, 4),
   (1372903, 4), (1371134, 4), (1369369, 4), (1372751, 4), (1370988, 4), (1369231, 4),
   (1372599, 4), (1370844, 4), (1369093, 4), (1367347, 4), (1370701, 4), (1374046, 4),
   (1367217, 4), (1370558, 4), (1368821, 4), (1372152, 4), (1370417, 4), (1368687, 4),
   (1372005, 4), (1370277, 4), (1368553, 4), (1371859, 4), (1370138, 4), (1368421, 4),
   (1371715, 4), (1370000, 4), (1368290, 4), (1366584, 4), (1364882, 4), (1368159, 4),
   (1366460, 4), (1369727, 4), (1368030, 4), (1371287, 4), (1364648, 4), (1367901, 4),
   (1371147, 4), (1369458, 4), (1367774, 4), (1371007, 4), (1369325, 4), (1362745, 4),
   (1365973, 4), (1369193, 4), (1367521, 4), (1370732, 4), (1369062, 4), (1367397, 4),
   (1365735, 4), (1368932, 4), (1367273, 4), (1370460, 4), (1368803, 4), (1367150, 4),
   (1370326, 4), (1363855, 4), (1367028, 4), (1365385, 4), (1368547, 4), (1366906, 4),
   (1370060, 4), (1368421, 4), (1371565, 4), (1365155, 4), (1363528, 4), (1366667, 4),
   (1365042, 4), (1368171, 4), (1366548, 4), (1364929, 4), (1368047, 4), (1366430, 4),
   (1369540, 4), (1367925, 4), (1366313, 4), (1364706, 4), (1367803, 4), (1366197, 4),
   (1369285, 4), (1367681, 4), (1366082, 4), (1369159, 4), (1367561, 4), (1365967, 4),
   (1364377, 4), (1367442, 4), (1365854, 4), (1368910, 4), (1367323, 4), (1365741, 4),
   (1364162, 4), (1367206, 4), (1365629, 4), (1364055, 4), (1367089, 4), (1365517, 4),
   (1363949, 4), (1366972, 4), (1365407, 4), (1368421, 4), (1362286, 4), (1365297, 4),
   (1363740, 4), (1366743, 4), (1365188, 4), (1363636, 4), (1362089, 4), (1369615, 4),
   (1363533, 4), (1366516, 4), (1364972, 4), (1363431, 4), (1366404, 4), (1364865, 4),
   (1367829, 4), (1366292, 4), (1364759, 4), (1363229, 4), (1361702, 4), (1364653, 4),
   (1363128, 4), (1366071, 4), (1364548, 4), (1363029, 4), (1361513, 4), (1364444, 4),
   (1362930, 4), (1361419, 4), (1364341, 4), (1362832, 4), (1365746, 4), (1364238, 4),
   (1362734, 4), (1365639, 4), (1364136, 4), (1362637, 4), (1365532, 4), (1364035, 4),
   (1366922, 4), (1365427, 4), (1363934, 4), (1362445, 4), (1365322, 4), (1363834, 4),
   (1362350, 4), (1365217, 4), (1363735, 4), (1366594, 4), (1360780, 4), (1363636, 4),
   (1362162, 4), (1360691, 4), (1363538, 4), (1362069, 4), (1364909, 4), (1363441, 4),
   (1361976, 4), (1360515, 4), (1363344, 4), (1366167, 4), (1360428, 4), (1363248, 4),
   (1366062, 4), (1364606, 4), (1363152, 4), (1361702, 4), (1364506, 4), (1363057, 4),
   (1361612, 4), (1360169, 4), (1362963, 4), (1361522, 4), (1364308, 4), (1362869, 4),
   (1361433, 4), (1360000, 4), (1362776, 4), (1361345, 4), (1364113, 4), (1362683, 4),
   (1365445, 4), (1359833, 4), (1362591, 4), (1361169, 4), (1359750, 4), (1362500, 4),
   (1361082, 4), (1359667, 4), (1362409, 4), (1365145, 4), (1363731, 4), (1362319, 4),
   (1360910, 4), (1363636, 4), (1362229, 4), (1360825, 4), (1359423, 4), (1362140, 4),
   (1364851, 4), (1363450, 4), (1362051, 4), (1360656, 4), (1363357, 4), (1361963, 4),
   (1360572, 4), (1363265, 4), (1361876, 4), (1360489, 4), (1359105, 4), (1361789, 4),
   (1360406, 4), (1359026, 4), (1361702, 4), (1360324, 4), (1362993, 4), (1361616, 4),
   (1360242, 4), (1358871, 4), (1361531, 4), (1360161, 4), (1362814, 4), (1357430, 4),
   (1360080, 4), (1362725, 4), (1361361, 4), (1360000, 4)]

/-- `DEFAULT_PARAM_ITEM`. -/
def defaultParamItem : IbltParamItem := { overhead := 3 / 2, numhashes := 3 }

/-- `IbltParamItem(overhead, numhashes)`: the overhead becomes a `float`. -/
def paramItem (entry : Nat × Nat) : IbltParamItem :=
  { overhead := Binary32.round (entry.1 / 10 ^ 6), numhashes := entry.2 }

/-- `CIbltParams::Lookup`. -/
def lookup : Nat → IbltParamItem
  | 0 => defaultParamItem
  | k + 1 => (paramMap[k]?.map paramItem).getD defaultParamItem

/-- The least overhead is above one, and the least number of hashes is three. -/
theorem paramMap_bounds : ∀ entry ∈ paramMap, 1100000 ≤ entry.1 ∧ 3 ≤ entry.2 := by
  have hall : (paramMap.all fun entry => 1100000 ≤ entry.1 ∧ 3 ≤ entry.2) = true := by
    decide +kernel
  simpa using hall

theorem lookup_cases (nItems : Nat) :
    lookup nItems = defaultParamItem ∨ ∃ entry ∈ paramMap, lookup nItems = paramItem entry := by
  cases nItems with
  | zero => exact .inl rfl
  | succ k =>
      rw [lookup]
      cases hget : paramMap[k]? with
      | none => exact .inl rfl
      | some entry => exact .inr ⟨entry, List.mem_of_getElem? hget, rfl⟩

theorem one_lt_numhashes (nItems : Nat) : 1 < (lookup nItems).numhashes := by
  obtain h | ⟨entry, hmem, h⟩ := lookup_cases nItems
  · rw [h]
    decide
  · rw [h]
    exact Nat.lt_of_lt_of_le (by decide) (paramMap_bounds entry hmem).2

theorem le_overhead (nItems : Nat) : 109 / 100 ≤ (lookup nItems).overhead := by
  obtain h | ⟨entry, hmem, h⟩ := lookup_cases nItems
  · rw [h]
    norm_num [defaultParamItem]
  · have hle : (1100000 : ℚ) ≤ entry.1 := by exact_mod_cast (paramMap_bounds entry hmem).1
    have hround := Binary32.le_round (x := (entry.1 : ℚ) / 10 ^ 6) (by positivity)
    rw [h]
    rw [paramItem]
    linarith

end CIbltParams

end GhostDag
