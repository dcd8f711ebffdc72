import Recurrence.Zone.Database

/-!
Some zones as they are on record between 2000 and 2040: the offset at the start of 2000 and each
change after it.
-/

namespace Recurrence.Zone

def cairo : Zone :=
  ⟨7200,
    [(956872800, 10800), (970174800, 7200), (988322400, 10800), (1001624400, 7200),
     (1019772000, 10800), (1033074000, 7200), (1051221600, 10800), (1064523600, 7200),
     (1083276000, 10800), (1096578000, 7200), (1114725600, 10800), (1128027600, 7200),
     (1146175200, 10800), (1158872400, 7200), (1177624800, 10800), (1189112400, 7200),
     (1209074400, 10800), (1219957200, 7200), (1240524000, 10800), (1250802000, 7200),
     (1272578400, 10800), (1281474000, 7200), (1284069600, 10800), (1285880400, 7200),
     (1400191200, 10800), (1403816400, 7200), (1406844000, 10800), (1411678800, 7200),
     (1682632800, 10800), (1698354000, 7200), (1714082400, 10800), (1730408400, 7200),
     (1745532000, 10800), (1761858000, 7200), (1776981600, 10800), (1793307600, 7200),
     (1809036000, 10800), (1824757200, 7200), (1840485600, 10800), (1856206800, 7200),
     (1871935200, 10800), (1887656400, 7200), (1903384800, 10800), (1919710800, 7200),
     (1934834400, 10800), (1951160400, 7200), (1966888800, 10800), (1982610000, 7200),
     (1998338400, 10800), (2014059600, 7200), (2029788000, 10800), (2045509200, 7200),
     (2061237600, 10800), (2076958800, 7200), (2092687200, 10800), (2109013200, 7200),
     (2124136800, 10800), (2140462800, 7200), (2156191200, 10800), (2171912400, 7200),
     (2187640800, 10800), (2203362000, 7200)],
    by decide +kernel⟩

def newYork : Zone :=
  ⟨-18000,
    [(954658800, -14400), (972799200, -18000), (986108400, -14400), (1004248800, -18000),
     (1018162800, -14400), (1035698400, -18000), (1049612400, -14400), (1067148000, -18000),
     (1081062000, -14400), (1099202400, -18000), (1112511600, -14400), (1130652000, -18000),
     (1143961200, -14400), (1162101600, -18000), (1173596400, -14400), (1194156000, -18000),
     (1205046000, -14400), (1225605600, -18000), (1236495600, -14400), (1257055200, -18000),
     (1268550000, -14400), (1289109600, -18000), (1299999600, -14400), (1320559200, -18000),
     (1331449200, -14400), (1352008800, -18000), (1362898800, -14400), (1383458400, -18000),
     (1394348400, -14400), (1414908000, -18000), (1425798000, -14400), (1446357600, -18000),
     (1457852400, -14400), (1478412000, -18000), (1489302000, -14400), (1509861600, -18000),
     (1520751600, -14400), (1541311200, -18000), (1552201200, -14400), (1572760800, -18000),
     (1583650800, -14400), (1604210400, -18000), (1615705200, -14400), (1636264800, -18000),
     (1647154800, -14400), (1667714400, -18000), (1678604400, -14400), (1699164000, -18000),
     (1710054000, -14400), (1730613600, -18000), (1741503600, -14400), (1762063200, -18000),
     (1772953200, -14400), (1793512800, -18000), (1805007600, -14400), (1825567200, -18000),
     (1836457200, -14400), (1857016800, -18000), (1867906800, -14400), (1888466400, -18000),
     (1899356400, -14400), (1919916000, -18000), (1930806000, -14400), (1951365600, -18000),
     (1962860400, -14400), (1983420000, -18000), (1994310000, -14400), (2014869600, -18000),
     (2025759600, -14400), (2046319200, -18000), (2057209200, -14400), (2077768800, -18000),
     (2088658800, -14400), (2109218400, -18000), (2120108400, -14400), (2140668000, -18000),
     (2152162800, -14400), (2172722400, -18000), (2183612400, -14400), (2204172000, -18000)],
    by decide +kernel⟩

def saoPaulo : Zone :=
  ⟨-7200,
    [(951616800, -10800), (970974000, -7200), (982461600, -10800), (1003028400, -7200),
     (1013911200, -10800), (1036292400, -7200), (1045360800, -10800), (1066532400, -7200),
     (1076810400, -10800), (1099364400, -7200), (1108864800, -10800), (1129431600, -7200),
     (1140314400, -10800), (1162695600, -7200), (1172368800, -10800), (1192330800, -7200),
     (1203213600, -10800), (1224385200, -7200), (1234663200, -10800), (1255834800, -7200),
     (1266717600, -10800), (1287284400, -7200), (1298167200, -10800), (1318734000, -7200),
     (1330221600, -10800), (1350788400, -7200), (1361066400, -10800), (1382238000, -7200),
     (1392516000, -10800), (1413687600, -7200), (1424570400, -10800), (1445137200, -7200),
     (1456020000, -10800), (1476586800, -7200), (1487469600, -10800), (1508036400, -7200),
     (1518919200, -10800), (1541300400, -7200), (1550368800, -10800)],
    by decide +kernel⟩

def stJohns : Zone :=
  ⟨-12600,
    [(954646260, -9000), (972786660, -12600), (986095860, -9000), (1004236260, -12600),
     (1018150260, -9000), (1035685860, -12600), (1049599860, -9000), (1067135460, -12600),
     (1081049460, -9000), (1099189860, -12600), (1112499060, -9000), (1130639460, -12600),
     (1143948660, -9000), (1162089060, -12600), (1173583860, -9000), (1194143460, -12600),
     (1205033460, -9000), (1225593060, -12600), (1236483060, -9000), (1257042660, -12600),
     (1268537460, -9000), (1289097060, -12600), (1299987060, -9000), (1320553800, -12600),
     (1331443800, -9000), (1352003400, -12600), (1362893400, -9000), (1383453000, -12600),
     (1394343000, -9000), (1414902600, -12600), (1425792600, -9000), (1446352200, -12600),
     (1457847000, -9000), (1478406600, -12600), (1489296600, -9000), (1509856200, -12600),
     (1520746200, -9000), (1541305800, -12600), (1552195800, -9000), (1572755400, -12600),
     (1583645400, -9000), (1604205000, -12600), (1615699800, -9000), (1636259400, -12600),
     (1647149400, -9000), (1667709000, -12600), (1678599000, -9000), (1699158600, -12600),
     (1710048600, -9000), (1730608200, -12600), (1741498200, -9000), (1762057800, -12600),
     (1772947800, -9000), (1793507400, -12600), (1805002200, -9000), (1825561800, -12600),
     (1836451800, -9000), (1857011400, -12600), (1867901400, -9000), (1888461000, -12600),
     (1899351000, -9000), (1919910600, -12600), (1930800600, -9000), (1951360200, -12600),
     (1962855000, -9000), (1983414600, -12600), (1994304600, -9000), (2014864200, -12600),
     (2025754200, -9000), (2046313800, -12600), (2057203800, -9000), (2077763400, -12600),
     (2088653400, -9000), (2109213000, -12600), (2120103000, -9000), (2140662600, -12600),
     (2152157400, -9000), (2172717000, -12600), (2183607000, -9000), (2204166600, -12600)],
    by decide +kernel⟩

def beirut : Zone :=
  ⟨7200,
    [(954021600, 10800), (972766800, 7200), (985471200, 10800), (1004216400, 7200),
     (1017525600, 10800), (1035666000, 7200), (1048975200, 10800), (1067115600, 7200),
     (1080424800, 10800), (1099170000, 7200), (1111874400, 10800), (1130619600, 7200),
     (1143324000, 10800), (1162069200, 7200), (1174773600, 10800), (1193518800, 7200),
     (1206828000, 10800), (1224968400, 7200), (1238277600, 10800), (1256418000, 7200),
     (1269727200, 10800), (1288472400, 7200), (1301176800, 10800), (1319922000, 7200),
     (1332626400, 10800), (1351371600, 7200), (1364680800, 10800), (1382821200, 7200),
     (1396130400, 10800), (1414270800, 7200), (1427580000, 10800), (1445720400, 7200),
     (1459029600, 10800), (1477774800, 7200), (1490479200, 10800), (1509224400, 7200),
     (1521928800, 10800), (1540674000, 7200), (1553983200, 10800), (1572123600, 7200),
     (1585432800, 10800), (1603573200, 7200), (1616882400, 10800), (1635627600, 7200),
     (1648332000, 10800), (1667077200, 7200), (1679781600, 10800), (1698526800, 7200),
     (1711836000, 10800), (1729976400, 7200), (1743285600, 10800), (1761426000, 7200),
     (1774735200, 10800), (1792875600, 7200), (1806184800, 10800), (1824930000, 7200),
     (1837634400, 10800), (1856379600, 7200), (1869084000, 10800), (1887829200, 7200),
     (1901138400, 10800), (1919278800, 7200), (1932588000, 10800), (1950728400, 7200),
     (1964037600, 10800), (1982782800, 7200), (1995487200, 10800), (2014232400, 7200),
     (2026936800, 10800), (2045682000, 7200), (2058386400, 10800), (2077131600, 7200),
     (2090440800, 10800), (2108581200, 7200), (2121890400, 10800), (2140030800, 7200),
     (2153340000, 10800), (2172085200, 7200), (2184789600, 10800), (2203534800, 7200)],
    by decide +kernel⟩

def lordHowe : Zone :=
  ⟨39600,
    [(953996400, 37800), (967303800, 39600), (985446000, 37800), (1004196600, 39600),
     (1017500400, 37800), (1035646200, 39600), (1048950000, 37800), (1067095800, 39600),
     (1080399600, 37800), (1099150200, 39600), (1111849200, 37800), (1130599800, 39600),
     (1143903600, 37800), (1162049400, 39600), (1174748400, 37800), (1193499000, 39600),
     (1207407600, 37800), (1223134200, 39600), (1238857200, 37800), (1254583800, 39600),
     (1270306800, 37800), (1286033400, 39600), (1301756400, 37800), (1317483000, 39600),
     (1333206000, 37800), (1349537400, 39600), (1365260400, 37800), (1380987000, 39600),
     (1396710000, 37800), (1412436600, 39600), (1428159600, 37800), (1443886200, 39600),
     (1459609200, 37800), (1475335800, 39600), (1491058800, 37800), (1506785400, 39600),
     (1522508400, 37800), (1538839800, 39600), (1554562800, 37800), (1570289400, 39600),
     (1586012400, 37800), (1601739000, 39600), (1617462000, 37800), (1633188600, 39600),
     (1648911600, 37800), (1664638200, 39600), (1680361200, 37800), (1696087800, 39600),
     (1712415600, 37800), (1728142200, 39600), (1743865200, 37800), (1759591800, 39600),
     (1775314800, 37800), (1791041400, 39600), (1806764400, 37800), (1822491000, 39600),
     (1838214000, 37800), (1853940600, 39600), (1869663600, 37800), (1885995000, 39600),
     (1901718000, 37800), (1917444600, 39600), (1933167600, 37800), (1948894200, 39600),
     (1964617200, 37800), (1980343800, 39600), (1996066800, 37800), (2011793400, 39600),
     (2027516400, 37800), (2043243000, 39600), (2058966000, 37800), (2075297400, 39600),
     (2091020400, 37800), (2106747000, 39600), (2122470000, 37800), (2138196600, 39600),
     (2153919600, 37800), (2169646200, 39600), (2185369200, 37800), (2201095800, 39600)],
    by decide +kernel⟩

def sydney : Zone :=
  ⟨39600,
    [(954000000, 36000), (967305600, 39600), (985449600, 36000), (1004198400, 39600),
     (1017504000, 36000), (1035648000, 39600), (1048953600, 36000), (1067097600, 39600),
     (1080403200, 36000), (1099152000, 39600), (1111852800, 36000), (1130601600, 39600),
     (1143907200, 36000), (1162051200, 39600), (1174752000, 36000), (1193500800, 39600),
     (1207411200, 36000), (1223136000, 39600), (1238860800, 36000), (1254585600, 39600),
     (1270310400, 36000), (1286035200, 39600), (1301760000, 36000), (1317484800, 39600),
     (1333209600, 36000), (1349539200, 39600), (1365264000, 36000), (1380988800, 39600),
     (1396713600, 36000), (1412438400, 39600), (1428163200, 36000), (1443888000, 39600),
     (1459612800, 36000), (1475337600, 39600), (1491062400, 36000), (1506787200, 39600),
     (1522512000, 36000), (1538841600, 39600), (1554566400, 36000), (1570291200, 39600),
     (1586016000, 36000), (1601740800, 39600), (1617465600, 36000), (1633190400, 39600),
     (1648915200, 36000), (1664640000, 39600), (1680364800, 36000), (1696089600, 39600),
     (1712419200, 36000), (1728144000, 39600), (1743868800, 36000), (1759593600, 39600),
     (1775318400, 36000), (1791043200, 39600), (1806768000, 36000), (1822492800, 39600),
     (1838217600, 36000), (1853942400, 39600), (1869667200, 36000), (1885996800, 39600),
     (1901721600, 36000), (1917446400, 39600), (1933171200, 36000), (1948896000, 39600),
     (1964620800, 36000), (1980345600, 39600), (1996070400, 36000), (2011795200, 39600),
     (2027520000, 36000), (2043244800, 39600), (2058969600, 36000), (2075299200, 39600),
     (2091024000, 36000), (2106748800, 39600), (2122473600, 36000), (2138198400, 39600),
     (2153923200, 36000), (2169648000, 39600), (2185372800, 36000), (2201097600, 39600)],
    by decide +kernel⟩

def berlin : Zone :=
  ⟨3600,
    [(954032400, 7200), (972781200, 3600), (985482000, 7200), (1004230800, 3600),
     (1017536400, 7200), (1035680400, 3600), (1048986000, 7200), (1067130000, 3600),
     (1080435600, 7200), (1099184400, 3600), (1111885200, 7200), (1130634000, 3600),
     (1143334800, 7200), (1162083600, 3600), (1174784400, 7200), (1193533200, 3600),
     (1206838800, 7200), (1224982800, 3600), (1238288400, 7200), (1256432400, 3600),
     (1269738000, 7200), (1288486800, 3600), (1301187600, 7200), (1319936400, 3600),
     (1332637200, 7200), (1351386000, 3600), (1364691600, 7200), (1382835600, 3600),
     (1396141200, 7200), (1414285200, 3600), (1427590800, 7200), (1445734800, 3600),
     (1459040400, 7200), (1477789200, 3600), (1490490000, 7200), (1509238800, 3600),
     (1521939600, 7200), (1540688400, 3600), (1553994000, 7200), (1572138000, 3600),
     (1585443600, 7200), (1603587600, 3600), (1616893200, 7200), (1635642000, 3600),
     (1648342800, 7200), (1667091600, 3600), (1679792400, 7200), (1698541200, 3600),
     (1711846800, 7200), (1729990800, 3600), (1743296400, 7200), (1761440400, 3600),
     (1774746000, 7200), (1792890000, 3600), (1806195600, 7200), (1824944400, 3600),
     (1837645200, 7200), (1856394000, 3600), (1869094800, 7200), (1887843600, 3600),
     (1901149200, 7200), (1919293200, 3600), (1932598800, 7200), (1950742800, 3600),
     (1964048400, 7200), (1982797200, 3600), (1995498000, 7200), (2014246800, 3600),
     (2026947600, 7200), (2045696400, 3600), (2058397200, 7200), (2077146000, 3600),
     (2090451600, 7200), (2108595600, 3600), (2121901200, 7200), (2140045200, 3600),
     (2153350800, 7200), (2172099600, 3600), (2184800400, 7200), (2203549200, 3600)],
    by decide +kernel⟩

def london : Zone :=
  ⟨0,
    [(954032400, 3600), (972781200, 0), (985482000, 3600), (1004230800, 0), (1017536400, 3600),
     (1035680400, 0), (1048986000, 3600), (1067130000, 0), (1080435600, 3600), (1099184400, 0),
     (1111885200, 3600), (1130634000, 0), (1143334800, 3600), (1162083600, 0), (1174784400, 3600),
     (1193533200, 0), (1206838800, 3600), (1224982800, 0), (1238288400, 3600), (1256432400, 0),
     (1269738000, 3600), (1288486800, 0), (1301187600, 3600), (1319936400, 0), (1332637200, 3600),
     (1351386000, 0), (1364691600, 3600), (1382835600, 0), (1396141200, 3600), (1414285200, 0),
     (1427590800, 3600), (1445734800, 0), (1459040400, 3600), (1477789200, 0), (1490490000, 3600),
     (1509238800, 0), (1521939600, 3600), (1540688400, 0), (1553994000, 3600), (1572138000, 0),
     (1585443600, 3600), (1603587600, 0), (1616893200, 3600), (1635642000, 0), (1648342800, 3600),
     (1667091600, 0), (1679792400, 3600), (1698541200, 0), (1711846800, 3600), (1729990800, 0),
     (1743296400, 3600), (1761440400, 0), (1774746000, 3600), (1792890000, 0), (1806195600, 3600),
     (1824944400, 0), (1837645200, 3600), (1856394000, 0), (1869094800, 3600), (1887843600, 0),
     (1901149200, 3600), (1919293200, 0), (1932598800, 3600), (1950742800, 0), (1964048400, 3600),
     (1982797200, 0), (1995498000, 3600), (2014246800, 0), (2026947600, 3600), (2045696400, 0),
     (2058397200, 3600), (2077146000, 0), (2090451600, 3600), (2108595600, 0), (2121901200, 3600),
     (2140045200, 0), (2153350800, 3600), (2172099600, 0), (2184800400, 3600), (2203549200, 0)],
    by decide +kernel⟩

def apia : Zone :=
  ⟨-39600,
    [(1285498800, -36000), (1301752800, -39600), (1316872800, -36000), (1325239200, 50400),
     (1333202400, 46800), (1348927200, 50400), (1365256800, 46800), (1380376800, 50400),
     (1396706400, 46800), (1411826400, 50400), (1428156000, 46800), (1443276000, 50400),
     (1459605600, 46800), (1474725600, 50400), (1491055200, 46800), (1506175200, 50400),
     (1522504800, 46800), (1538229600, 50400), (1554559200, 46800), (1569679200, 50400),
     (1586008800, 46800), (1601128800, 50400), (1617458400, 46800)],
    by decide +kernel⟩

def chatham : Zone :=
  ⟨49500,
    [(953388000, 45900), (970322400, 49500), (984837600, 45900), (1002376800, 49500),
     (1016287200, 45900), (1033826400, 49500), (1047736800, 45900), (1065276000, 49500),
     (1079791200, 45900), (1096725600, 49500), (1111240800, 45900), (1128175200, 49500),
     (1142690400, 45900), (1159624800, 49500), (1174140000, 45900), (1191074400, 49500),
     (1207404000, 45900), (1222524000, 49500), (1238853600, 45900), (1253973600, 49500),
     (1270303200, 45900), (1285423200, 49500), (1301752800, 45900), (1316872800, 49500),
     (1333202400, 45900), (1348927200, 49500), (1365256800, 45900), (1380376800, 49500),
     (1396706400, 45900), (1411826400, 49500), (1428156000, 45900), (1443276000, 49500),
     (1459605600, 45900), (1474725600, 49500), (1491055200, 45900), (1506175200, 49500),
     (1522504800, 45900), (1538229600, 49500), (1554559200, 45900), (1569679200, 49500),
     (1586008800, 45900), (1601128800, 49500), (1617458400, 45900), (1632578400, 49500),
     (1648908000, 45900), (1664028000, 49500), (1680357600, 45900), (1695477600, 49500),
     (1712412000, 45900), (1727532000, 49500), (1743861600, 45900), (1758981600, 49500),
     (1775311200, 45900), (1790431200, 49500), (1806760800, 45900), (1821880800, 49500),
     (1838210400, 45900), (1853330400, 49500), (1869660000, 45900), (1885384800, 49500),
     (1901714400, 45900), (1916834400, 49500), (1933164000, 45900), (1948284000, 49500),
     (1964613600, 45900), (1979733600, 49500), (1996063200, 45900), (2011183200, 49500),
     (2027512800, 45900), (2042632800, 49500), (2058962400, 45900), (2074687200, 49500),
     (2091016800, 45900), (2106136800, 49500), (2122466400, 45900), (2137586400, 49500),
     (2153916000, 45900), (2169036000, 49500), (2185365600, 45900), (2200485600, 49500)],
    by decide +kernel⟩

def records : List (String × Zone) :=
  [("Africa/Cairo", cairo), ("America/New_York", newYork), ("America/Sao_Paulo", saoPaulo),
   ("America/St_Johns", stJohns), ("Asia/Beirut", beirut), ("Asia/Kathmandu", fixed 20700),
   ("Asia/Tokyo", fixed 32400), ("Australia/Lord_Howe", lordHowe), ("Australia/Sydney", sydney),
   ("Etc/GMT+5", fixed (-18000)), ("Europe/Berlin", berlin), ("Europe/London", london),
   ("Pacific/Apia", apia), ("Pacific/Chatham", chatham), ("UTC", fixed 0), ("GMT", fixed 0)]

def recorded : Database := .ofRecords records

end Recurrence.Zone
